import TreeWalk.Machine

/-!
# Operators

What operators and positions give on values. All arithmetic and all comparison of numbers is done in
floating point, and a whole result that fits a machine word becomes one.
-/

namespace TreeWalk

/-- The number of a value, or the fault that it has none. -/
def Heap.number (h : Heap) (v : Value) : Except Fault Float :=
  match v.toFloat? with
  | some x => .ok x
  | none => .error (.conversion (h.describe v) .float)

/-- The numbers of two values; the first one without a number is at fault. -/
def Heap.numbers (h : Heap) (a b : Value) : Except Fault (Float × Float) :=
  match h.number a with
  | .error f => .error f
  | .ok x =>
    match h.number b with
    | .error f => .error f
    | .ok y => .ok (x, y)

/-- Applies `f` to the numbers of two values. -/
def Heap.onNumbers (h : Heap) (a b : Value) (f : Float → Float → Value) : Except Fault Value :=
  match h.numbers a b with
  | .error fault => .error fault
  | .ok (x, y) => .ok (f x y)

/-- What `++` and `--` add. -/
def stepSize? (operator : Token) : Option Float :=
  match operator.kind with
  | .symbol .plusPlus => some 1.0
  | .symbol .minusMinus => some (-1.0)
  | _ => none

/-- A unary operator on a value. `++` and `--` give the new number before the operand and the old
one after it; the operand itself is not changed here. -/
def Heap.unary (h : Heap) (operator : Token) (fixity : Fixity) (v : Value) : Except Fault Value :=
  match operator.kind with
  | .symbol .bang => .ok (.bool !v.isTruthy)
  | .symbol .minus =>
    match h.number v with
    | .error f => .error f
    | .ok x => .ok (.ofFloat (-x))
  | _ =>
    match stepSize? operator with
    | some size =>
      match h.number v with
      | .error f => .error f
      | .ok x =>
        match fixity with
        | .before => .ok (.ofFloat (x + size))
        | .after => .ok (.ofFloat x)
    | none => .error (.onLine operator.line (.unknownUnary operator.lexeme))

/-- A sum of numbers, or two texts one after the other. -/
def Heap.plus (h : Heap) (a b : Value) : Except Fault Value :=
  match a, b with
  | .string s, .string t => .ok (.string (s ++ t))
  | .string _, other => .error (.conversion (h.describe other) .string)
  | _, _ => h.onNumbers a b fun x y => .ofFloat (x + y)

/-- A binary operator on two values. -/
def Heap.binary (h : Heap) (a : Value) (operator : Token) (b : Value) : Except Fault Value :=
  match operator.kind with
  | .symbol .equalEqual => .ok (.bool (h.same a b))
  | .symbol .bangEqual => .ok (.bool !h.same a b)
  | .symbol .plus => h.plus a b
  | .symbol .minus => h.onNumbers a b fun x y => .ofFloat (x - y)
  | .symbol .star => h.onNumbers a b fun x y => .ofFloat (x * y)
  | .symbol .slash => h.onNumbers a b fun x y => .ofFloat (x / y)
  | .symbol .greater => h.onNumbers a b fun x y => .bool (y < x)
  | .symbol .greaterEqual => h.onNumbers a b fun x y => .bool (y ≤ x)
  | .symbol .less => h.onNumbers a b fun x y => .bool (x < y)
  | .symbol .lessEqual => h.onNumbers a b fun x y => .bool (x ≤ y)
  | _ => .error (.onLine operator.line (.unknownBinary operator.lexeme))

/-- Whether the left operand of `and` or `or` decides. -/
def logicalDecides (operator : Token) (left : Value) : Bool :=
  if operator.isKeyword .or_ then left.isTruthy else !left.isTruthy

/-- The position that a value names. -/
def Value.position? : Value → Option Int
  | .int n => some n.toInt
  | .float x =>
    match Value.ofFloat x with
    | .int n => some n.toInt
    | _ => none
  | _ => none

/-- The element of a list at a position. -/
def elementAt? (elements : List Value) : Int → Option Value
  | .ofNat n => elements[n]?
  | .negSucc _ => none

/-- The element of an array at a position. -/
def Heap.index (h : Heap) (collection : Value) (bracket : Token) (position : Value) :
    Except Fault Value :=
  match collection with
  | .array r =>
    match position.position? with
    | none => .error (.onLine bracket.line (.positionNotWhole (h.describe position)))
    | some p =>
      match elementAt? (h.array r) p with
      | some v => .ok v
      | none => .error (.onLine bracket.line (.positionOutOfRange p (h.array r).length))
  | _ => .error (.onLine bracket.line (.notIndexable collection.type))

end TreeWalk
