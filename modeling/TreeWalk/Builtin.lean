import TreeWalk.Text.Blank
import TreeWalk.Number.Reading
import TreeWalk.Fault
import TreeWalk.Heap

/-!
# Builtin functions

`apply` calls a builtin function on arguments that were counted before.
-/

namespace TreeWalk

namespace Builtin

/-- The whole number that is left of a number when its fraction is cut off. -/
def truncate? (x : Float) : Option Int64 :=
  (Exact.ofFloat x).truncate?.bind int64?

/-- The whole number of a value. A text is read as a whole number, else as a floating-point number
that is cut off. -/
def toInt? : Value → Option Int64
  | .int n => some n
  | .float x => truncate? x
  | .bool b => some (if b then 1 else 0)
  | .string s =>
    let cs := Text.trim s.toList
    match readInt64? cs with
    | some n => some n
    | none => (readFloat? cs).bind truncate?
  | _ => none

/-- The floating-point number of a value. -/
def toFloat? : Value → Option Float
  | .int n => some (Float.ofInt n.toInt)
  | .float x => some x
  | .bool b => some (if b then 1.0 else 0.0)
  | .string s => readFloat? (Text.trim s.toList)
  | _ => none

/-- The number of elements or characters of a value. -/
def length? (h : Heap) : Value → Option Nat
  | .array r => some (h.array r).length
  | .string s => some s.length
  | _ => none

/-- The first of the arguments. -/
def argument (arguments : List Value) : Value :=
  arguments.headD .nil

/-- The value of a call on line `line` at time `time`. -/
def apply (b : Builtin) (h : Heap) (time : Float) (line : Nat) (arguments : List Value) :
    Except Fault Value × Heap :=
  let v := argument arguments
  match b with
  | clock => (.ok (.float time), h)
  | type => (.ok (.string v.type.text), h)
  | int =>
    match toInt? v with
    | some n => (.ok (.int n), h)
    | none => (.error (.conversion (h.describe v) .int), h)
  | float =>
    match toFloat? v with
    | some x => (.ok (.float x), h)
    | none => (.error (.conversion (h.describe v) .float), h)
  | bool => (.ok (.bool v.isTruthy), h)
  | string => (.ok (.string (h.text v)), h)
  | array =>
    let (a, h) := h.newArray arguments
    (.ok a, h)
  | len =>
    match length? h v with
    | some n => (.ok (.int (Int64.ofNat n)), h)
    | none => (.error (.onLine line (.noLength v.type)), h)

end Builtin

end TreeWalk
