import TreeWalk.Table
import TreeWalk.Value

/-!
# Scopes of a running program

Scopes are numbered in the order in which they are made. Every scope but the first knows the scope
around it. A variable is found in two ways: by its distance, which names the scope that has to hold
it, or by its name alone, which is looked for from a scope outwards.
-/

namespace TreeWalk

/-- Variables and the scope around them. -/
structure Scope where
  enclosing : Option Nat
  bindings : Table Value

/-- A scope around everything, without variables. -/
def Scope.blank : Scope := ⟨none, []⟩

structure Scopes where
  cells : Array Scope

namespace Scopes

/-- One scope, around everything. -/
def root : Scopes := ⟨#[Scope.blank]⟩

def cell (s : Scopes) (e : Nat) : Scope :=
  s.cells[e]?.getD Scope.blank

def nextScope (s : Scopes) : Nat :=
  s.cells.size

/-- Makes a scope inside of `e`; its number is `nextScope`. -/
def child (s : Scopes) (e : Nat) : Scopes :=
  ⟨s.cells.push ⟨some e, []⟩⟩

def binds (s : Scopes) (e : Nat) (x : String) : Bool :=
  (s.cell e).bindings.contains x

/-- The value of `x` in `e` itself. -/
def here? (s : Scopes) (e : Nat) (x : String) : Option Value :=
  (s.cell e).bindings.get? x

def define (s : Scopes) (e : Nat) (x : String) (v : Value) : Scopes :=
  ⟨s.cells.modify e fun c => { c with bindings := c.bindings.set x v }⟩

/-- The nearest scope from `e` outwards that holds `x`, at most `fuel` scopes away. -/
def holderWithin (s : Scopes) (x : String) : (fuel : Nat) → (e : Nat) → Option Nat
  | 0, _ => none
  | fuel + 1, e =>
    if s.binds e x then some e
    else match (s.cell e).enclosing with
      | some outer => holderWithin s x fuel outer
      | none => none

/-- The nearest scope from `e` outwards that holds `x`. A scope lies inside of earlier ones only, so
there are at most `e` around it. -/
def holder? (s : Scopes) (e : Nat) (x : String) : Option Nat :=
  s.holderWithin x (e + 1) e

/-- The value of `x` in the nearest scope that holds it. -/
def get? (s : Scopes) (e : Nat) (x : String) : Option Value :=
  match s.holder? e x with
  | some holder => s.here? holder x
  | none => none

/-- Gives `x` a value in the nearest scope that holds it. -/
def assign? (s : Scopes) (e : Nat) (x : String) (v : Value) : Option Scopes :=
  match s.holder? e x with
  | some holder => some (s.define holder x v)
  | none => none

/-- The scope `distance` steps out of `e`. -/
def ancestor? (s : Scopes) : (distance : Nat) → (e : Nat) → Option Nat
  | 0, e => some e
  | distance + 1, e =>
    match (s.cell e).enclosing with
    | some outer => s.ancestor? distance outer
    | none => none

/-- The scope exactly `distance` steps out of `e`, if it holds `x`. -/
def holderAt? (s : Scopes) (e distance : Nat) (x : String) : Option Nat :=
  match s.ancestor? distance e with
  | some holder => if s.binds holder x then some holder else none
  | none => none

/-- The value of `x` exactly `distance` steps out of `e`. -/
def getAt? (s : Scopes) (e distance : Nat) (x : String) : Option Value :=
  match s.ancestor? distance e with
  | some holder => s.here? holder x
  | none => none

/-- Gives `x` a value exactly `distance` steps out of `e`, if it has one there. -/
def assignAt? (s : Scopes) (e distance : Nat) (x : String) (v : Value) : Option Scopes :=
  match s.holderAt? e distance x with
  | some holder => some (s.define holder x v)
  | none => none

end Scopes

end TreeWalk
