import TreeWalk.Distance
import TreeWalk.Builtin

/-!
# The machine

A program is run by a machine that takes one small step at a time. A `State` is what the machine
attends to (`Focus`), what waits for the outcome of that (a stack of `Frame`s, innermost first) and
the `Machine` itself: heap, current scope, active calls and output. Nothing is kept outside of the
state, so every moment of a run is a state.
-/

namespace TreeWalk

/-- How a statement ended. -/
inductive Signal where
  | normal
  | exitLoop
  /-- Go on with the next round of the innermost loop. -/
  | nextRound
  /-- Leave the function with a value. -/
  | returned (value : Value)
deriving DecidableEq

structure Machine where
  heap : Heap
  /-- The scope around everything. -/
  globals : Nat
  /-- The scope of the statement at hand. -/
  scope : Nat
  /-- Where local variables live. -/
  distances : Distances
  /-- The names of the active calls, innermost first. -/
  calls : List String
  /-- How many calls are active. -/
  depth : Nat
  output : String
  time : Float

/-- What the machine attends to. -/
inductive Focus where
  | evaluate (e : Expr)
  | execute (s : Stmt)
  | invoke (callee : Value) (arguments : List Value) (line : Nat)
  /-- An expression or a call has a value. -/
  | value (v : Value)
  /-- A statement has ended. -/
  | signal (s : Signal)
  /-- The program has failed. -/
  | fault (f : Fault)

/-- A loop: condition, body and what runs between rounds. -/
structure Loop where
  condition : Expr
  body : Stmt
  increment : Option Expr

/-- What waits for an outcome. The frames up to `returning` wait for the value of an expression. -/
inductive Frame where
  | unary (operator : Token) (fixity : Fixity)
  | binaryLeft (operator : Token) (right : Expr)
  | binaryRight (left : Value) (operator : Token)
  | logical (operator : Token) (right : Expr)
  | ternary (whenTrue whenFalse : Expr)
  | assign (reference : Nat) (name : Token)
  | callee (paren : Token) (arguments : List Expr)
  /-- `done` is in reverse order. -/
  | arguments (callee : Value) (paren : Token) (done : List Value) (todo : List Expr)
  /-- `done` is in reverse order. -/
  | elements (done : List Value) (todo : List Expr)
  | collection (bracket : Token) (position : Expr)
  | position (collection : Value) (bracket : Token)
  | get (name : Token)
  | setObject (name : Token) (value : Expr)
  | setValue (target : Nat) (name : Token)
  | expression
  | print
  | var (name : Token) (rest : List (Token × Option Expr))
  | conditional (whenTrue : Stmt) (whenFalse : Option Stmt)
  | condition (loop : Loop)
  | increment (loop : Loop)
  | returning
  /-- The statements after the one at hand. -/
  | sequence (rest : List Stmt)
  | round (loop : Loop)
  /-- Restores the scope of the statement around a block or a body. -/
  | restore (scope : Nat)
  | body (function : Function)
  /-- The initializer of an instance. -/
  | construct (target : Nat)
  | leave

structure State where
  focus : Focus
  stack : List Frame
  machine : Machine

namespace Machine

/-- A machine before it runs anything: the global scope holds the builtin functions. -/
def initial (time : Float) : Machine where
  heap := Builtin.all.foldl (fun h b => h.define 0 b.name (.builtin b)) Heap.empty
  globals := 0
  scope := 0
  distances := .empty
  calls := []
  depth := 0
  output := ""
  time := time

/-- What holds of an empty heap and stays when a builtin function gets its name holds at first. -/
theorem initial_heap {P : Heap → Prop} (time : Float) (hempty : P Heap.empty)
    (hdefine : ∀ (h : Heap) (b : Builtin), P h → P (h.define 0 b.name (.builtin b))) :
    P (initial time).heap := by
  have hall : ∀ (bs : List Builtin) (h : Heap), P h →
      P (bs.foldl (fun h b => h.define 0 b.name (.builtin b)) h) := by
    intro bs
    induction bs with
    | nil => exact fun h hh => hh
    | cons b bs ih => exact fun h hh => ih _ (hdefine h b hh)
  exact hall _ _ hempty

def define (m : Machine) (x : String) (v : Value) : Machine :=
  { m with heap := m.heap.define m.scope x v }

def enterScope (m : Machine) (e : Nat) : Machine :=
  let (inner, heap) := m.heap.newScope e
  { m with heap := heap, scope := inner }

def printLine (m : Machine) (line : String) : Machine :=
  { m with output := m.output ++ line ++ "\n" }

def enterCall (m : Machine) (name : String) : Machine :=
  { m with calls := name :: m.calls, depth := m.depth + 1 }

def leaveCall (m : Machine) : Machine :=
  { m with calls := m.calls.tail, depth := m.depth - 1 }

/-- The fault for a name that has no value. -/
def undefined (name : Token) : Fault :=
  .onLine name.line (.undefinedVariable name.lexeme)

/-- The value of a variable: of a local one by its distance, of another one in the global scope. -/
def lookUp (m : Machine) (reference : Nat) (name : Token) : Except Fault Value :=
  let found := match m.distances.get? reference with
    | some distance => m.heap.scopes.getAt? m.scope distance name.lexeme
    | none => m.heap.scopes.get? m.globals name.lexeme
  match found with
  | some v => .ok v
  | none => .error (undefined name)

/-- The scope that holds a variable; it is found as in `lookUp`. -/
def holder? (m : Machine) (reference : Nat) (name : Token) : Option Nat :=
  match m.distances.get? reference with
  | some distance => m.heap.scopes.holderAt? m.scope distance name.lexeme
  | none => m.heap.scopes.holder? m.globals name.lexeme

def store (m : Machine) (e : Nat) (name : Token) (v : Value) : Machine :=
  { m with heap := m.heap.define e name.lexeme v }

end Machine

end TreeWalk
