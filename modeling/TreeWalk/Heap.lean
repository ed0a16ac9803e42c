import TreeWalk.Scope

/-!
# The heap

Scopes, functions, classes, instances and arrays live in the heap, each kind in a table of its own,
and are numbered in the order in which they are made. Only scopes and the fields of instances ever
change. `text` shows a value, and `same` compares two.
-/

namespace TreeWalk

/-- A function together with the scope it was made in. -/
structure Function where
  decl : FunctionDecl
  scope : Nat
  /-- Whether a call gives the instance, whatever the body returns. -/
  isInitializer : Bool
deriving Inhabited

def Function.arity (f : Function) : Arity :=
  .exactly f.decl.parameters.length

structure Class where
  name : String
  methods : Table Function
deriving Inhabited

structure Instance where
  class_ : Nat
  fields : Table Value
deriving Inhabited

structure Heap where
  scopes : Scopes
  functions : Array Function
  classes : Array Class
  instances : Array Instance
  arrays : Array (List Value)

namespace Heap

/-- One scope and nothing else. -/
def empty : Heap := ⟨Scopes.root, #[], #[], #[], #[]⟩

def function (h : Heap) (r : Nat) : Function :=
  h.functions[r]?.getD default

def class_ (h : Heap) (r : Nat) : Class :=
  h.classes[r]?.getD default

def instance_ (h : Heap) (r : Nat) : Instance :=
  h.instances[r]?.getD default

def array (h : Heap) (r : Nat) : List Value :=
  h.arrays[r]?.getD []

def newFunction (h : Heap) (f : Function) : Value × Heap :=
  (.function h.functions.size, { h with functions := h.functions.push f })

def newClass (h : Heap) (c : Class) : Value × Heap :=
  (.class_ h.classes.size, { h with classes := h.classes.push c })

/-- Makes an instance of class `c`, without fields; gives its number. -/
def newInstance (h : Heap) (c : Nat) : Nat × Heap :=
  (h.instances.size, { h with instances := h.instances.push ⟨c, []⟩ })

def newArray (h : Heap) (elements : List Value) : Value × Heap :=
  (.array h.arrays.size, { h with arrays := h.arrays.push elements })

/-- Makes a scope inside of `e`; gives its number. -/
def newScope (h : Heap) (e : Nat) : Nat × Heap :=
  (h.scopes.nextScope, { h with scopes := h.scopes.child e })

def define (h : Heap) (e : Nat) (x : String) (v : Value) : Heap :=
  { h with scopes := h.scopes.define e x v }

def setField (h : Heap) (r : Nat) (x : String) (v : Value) : Heap :=
  { h with instances := h.instances.modify r fun i => { i with fields := i.fields.set x v } }

def classOf (h : Heap) (r : Nat) : Class :=
  h.class_ (h.instance_ r).class_

/-- Binds a method to an instance: the scope of the bound method holds `this` and nothing else. -/
def bindMethod (h : Heap) (f : Function) (r : Nat) : Function × Heap :=
  let (e, h) := h.newScope f.scope
  ({ f with scope := e }, h.define e "this" (.instance_ r))

/-- A value as text. Arrays more than `fuel` deep show nothing. -/
def textWithin (h : Heap) : (fuel : Nat) → Value → String
  | _, .nil => "nil"
  | _, .bool b => if b then "true" else "false"
  | _, .int n => intText n.toInt
  | _, .float x => floatText x
  | _, .string s => s
  | 0, .array _ => ""
  | fuel + 1, .array r =>
    "[" ++ String.intercalate ", " ((h.array r).map fun v => h.textWithin fuel v) ++ "]"
  | _, .builtin b => "<builtin-fn " ++ b.name ++ ">"
  | _, .function r => "<fn " ++ (h.function r).decl.label ++ ">"
  | _, .class_ r => (h.class_ r).name
  | _, .instance_ r => (h.classOf r).name ++ " instance"

/-- A value as text. An array holds earlier arrays only, so they nest no deeper than there are
arrays. -/
def text (h : Heap) (v : Value) : String :=
  h.textWithin h.arrays.size v

theorem text_int (h : Heap) (n : Int64) : h.text (.int n) = intText n.toInt := by
  rw [text, textWithin]

def describe (h : Heap) (v : Value) : String :=
  h.text v ++ " [" ++ v.type.text ++ "]"

/-- Whether two values are equal. Numbers are compared as numbers and arrays element by element,
`fuel` deep; everything else in the heap is equal to itself only. -/
def sameWithin (h : Heap) : (fuel : Nat) → Value → Value → Bool
  | _, .nil, .nil => true
  | _, .bool a, .bool b => a == b
  | _, .int a, .int b => a == b
  | _, .string a, .string b => a == b
  | 0, .array a, .array b => a == b
  | fuel + 1, .array a, .array b =>
    a == b || (h.array a).isEqv (h.array b) fun v w => h.sameWithin fuel v w
  | _, .builtin a, .builtin b => a == b
  | _, .function a, .function b => a == b
  | _, .class_ a, .class_ b => a == b
  | _, .instance_ a, .instance_ b => a == b
  | _, a, b =>
    match a.toFloat?, b.toFloat? with
    | some x, some y => x == y
    | _, _ => false

def same (h : Heap) (a b : Value) : Bool :=
  h.sameWithin h.arrays.size a b

end Heap

end TreeWalk
