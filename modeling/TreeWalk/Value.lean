import TreeWalk.Number.Exact
import TreeWalk.Tree

/-!
# Values

A value is plain data or refers to something in the heap. Arrays, functions, classes and instances
are references, so two of them are the same when their references are; builtin functions are known
by name.
-/

namespace TreeWalk

/-- The types that a program can ask for. -/
inductive TypeName where
  | nil | bool | int | float | string | array | class_ | function | instance_
deriving DecidableEq, Repr

def TypeName.text : TypeName → String
  | nil => "nil"
  | bool => "bool"
  | int => "int"
  | float => "float"
  | string => "string"
  | array => "array"
  | class_ => "class"
  | function => "function"
  | instance_ => "instance"

/-- How many arguments a callable takes. -/
inductive Arity where
  | exactly (count : Nat)
  | anyNumber
deriving DecidableEq, Repr

namespace Arity

def accepts : Arity → Nat → Bool
  | exactly n, count => n == count
  | anyNumber, _ => true

def text : Arity → String
  | exactly n => natText n
  | anyNumber => "any number of"

end Arity

/-- The functions that every program finds in its global scope. -/
inductive Builtin where
  | clock | type | int | float | bool | string | array | len
deriving DecidableEq, Repr

namespace Builtin

/-- Every builtin function once. -/
def all : List Builtin :=
  [clock, type, int, float, bool, string, array, len]

def name : Builtin → String
  | clock => "clock"
  | type => "type"
  | int => "int"
  | float => "float"
  | bool => "bool"
  | string => "string"
  | array => "array"
  | len => "len"

def arity : Builtin → Arity
  | clock => .exactly 0
  | array => .anyNumber
  | _ => .exactly 1

end Builtin

inductive Value where
  | nil
  | bool (b : Bool)
  | int (n : Int64)
  | float (x : Float)
  | string (s : String)
  | array (reference : Nat)
  | builtin (b : Builtin)
  | function (reference : Nat)
  | class_ (reference : Nat)
  | instance_ (reference : Nat)
deriving DecidableEq

namespace Value

instance : Inhabited Value := ⟨.nil⟩

/-- The value of a constant. -/
def ofLiteral : Literal → Value
  | .nil => nil
  | .bool b => bool b
  | .int n => int n
  | .float x => float x
  | .string s => string s

/-- The value of a number: a machine word if the number is whole and fits one. -/
def ofFloat (x : Float) : Value :=
  match (Exact.ofFloat x).whole?.bind int64? with
  | some n => int n
  | none => float x

/-- The number that a value stands for in arithmetic. -/
def toFloat? : Value → Option Float
  | int n => some (Float.ofInt n.toInt)
  | float x => some x
  | _ => none

/-- Only `nil` and `false` are not. -/
def isTruthy : Value → Bool
  | nil => false
  | bool b => b
  | _ => true

def type : Value → TypeName
  | nil => .nil
  | bool _ => .bool
  | int _ => .int
  | float _ => .float
  | string _ => .string
  | array _ => .array
  | builtin _ => .function
  | function _ => .function
  | class_ _ => .class_
  | instance_ _ => .instance_

end Value

end TreeWalk
