import TreeWalk.Table
import TreeWalk.Distance
import TreeWalk.Tree

/-!
# Scopes of a syntax tree

Before a program runs, its tree is walked once. The walk finds misuses of names that need no
evaluation, and for every reference to a local variable it records how many scopes out the variable
lives. A block opens one scope, a function two (for its parameters and for its body), and a class
one that holds `this`. The global scope is none of these, so a name found in no scope is global.

The walk stops at the first misuse and keeps the distances recorded until then.
-/

namespace TreeWalk

/-- How a name can be misused. -/
inductive ScopeCause where
  | alreadyDeclared
  | readInInitializer
  | returnAtTopLevel
  | valueFromInitializer
  | thisOutsideClass
deriving DecidableEq, Repr

/-- A misuse and where it was found. -/
structure ScopeFault where
  cause : ScopeCause
  place : Place
deriving DecidableEq, Repr

/-- What the walk found: a result or a misuse, and the distances recorded. -/
inductive Verdict (α : Type) where
  | passed (value : α) (distances : Distances)
  | rejected (fault : ScopeFault) (distances : Distances)

def Walk (α : Type) : Type :=
  Distances → Verdict α

namespace Walk

@[always_inline, inline]
protected def pure {α : Type} (a : α) : Walk α :=
  fun d => .passed a d

@[always_inline, inline]
protected def bind {α β : Type} (p : Walk α) (f : α → Walk β) : Walk β :=
  fun d => match p d with
    | .passed a d' => f a d'
    | .rejected fault d' => .rejected fault d'

@[always_inline]
instance : Monad Walk where
  pure := Walk.pure
  bind := Walk.bind

def reject {α : Type} (cause : ScopeCause) (t : Token) : Walk α :=
  fun d => .rejected ⟨cause, t.place⟩ d

def record (reference distance : Nat) : Walk Unit :=
  fun d => .passed () (d.record reference distance)

end Walk

/-- The function body that surrounds a place. -/
inductive Body where
  | none
  | function
  | method
  | initializer
deriving DecidableEq, Repr

/-- What surrounds a place of the tree. -/
structure Context where
  /-- The names of each scope, innermost first. A name is marked once its value is there. -/
  scopes : List (Table Bool)
  body : Body
  inClass : Bool

namespace Context

def top : Context := ⟨[], .none, false⟩

def enter (c : Context) (names : Table Bool) : Context :=
  { c with scopes := names :: c.scopes }

/-- Marks a name of the innermost scope. -/
def mark (c : Context) (name : Token) (defined : Bool) : Context :=
  match c.scopes with
  | [] => c
  | scope :: outer => { c with scopes := scope.set name.lexeme defined :: outer }

/-- Adds a name to the innermost scope; its value is not there yet. -/
def declare (c : Context) (name : Token) : Walk Context :=
  match c.scopes with
  | [] => pure c
  | scope :: _ =>
    if scope.contains name.lexeme then Walk.reject .alreadyDeclared name
    else pure (c.mark name false)

/-- The value of a name is there from now on. -/
def define (c : Context) (name : Token) : Context :=
  c.mark name true

/-- Adds names to the innermost scope; `behind` is done behind each of them. -/
def addAll (behind : Context → Token → Context) (c : Context) : List Token → Walk Context
  | [] => pure c
  | name :: names => do
    let c ← c.declare name
    (behind c name).addAll behind names

/-- Adds names to the innermost scope, their values not there yet. -/
def declareAll (c : Context) (names : List Token) : Walk Context :=
  c.addAll (fun c _ => c) names

/-- Adds names to the innermost scope, each with its value. -/
def introduceAll (c : Context) (names : List Token) : Walk Context :=
  c.addAll define names

/-- Whether `x` is in the innermost scope and its value is not there yet. -/
def isPending (c : Context) (x : String) : Bool :=
  match c.scopes with
  | [] => false
  | scope :: _ => scope.get? x == some false

/-- How many scopes out `x` lives, if it is local. -/
def distance? (c : Context) (x : String) : Option Nat :=
  c.scopes.findIdx? fun scope => scope.contains x

/-- Records where the variable of a reference lives. -/
def locate (c : Context) (reference : Nat) (name : Token) : Walk Unit :=
  match c.distance? name.lexeme with
  | some distance => Walk.record reference distance
  | none => pure ()

/-- Inside a class: `this` has a scope of its own. -/
def enterClass (c : Context) : Context :=
  { c with inClass := true }.enter [("this", true)]

end Context

/-- The name that makes a method an initializer. -/
def initializerName : String := "init"

/-- What the body of a method is. -/
def FunctionDecl.methodBody (f : FunctionDecl) : Body :=
  if f.label = initializerName then .initializer else .method

mutual

def Expr.resolve : Expr → Context → Walk Unit
  | .literal _, _ => pure ()
  | .group inner, c => inner.resolve c
  | .unary _ operand _, c => operand.resolve c
  | .binary left _ right, c => do
    left.resolve c
    right.resolve c
  | .logical left _ right, c => do
    left.resolve c
    right.resolve c
  | .ternary condition whenTrue whenFalse, c => do
    condition.resolve c
    whenTrue.resolve c
    whenFalse.resolve c
  | .variable reference name, c =>
    if c.isPending name.lexeme then Walk.reject .readInInitializer name
    else c.locate reference name
  | .assign reference name value, c => do
    value.resolve c
    c.locate reference name
  | .call callee _ arguments, c => do
    callee.resolve c
    resolveExprs arguments c
  | .array _ elements, c => resolveExprs elements c
  | .index collection _ position, c => do
    collection.resolve c
    position.resolve c
  | .get object _, c => object.resolve c
  | .set object _ value, c => do
    object.resolve c
    value.resolve c
  | .this reference keyword, c =>
    if c.inClass then c.locate reference keyword
    else Walk.reject .thisOutsideClass keyword
  | .lambda function, c => function.resolve .function c

def resolveExprs : List Expr → Context → Walk Unit
  | [], _ => pure ()
  | e :: rest, c => do
    e.resolve c
    resolveExprs rest c

/-- Parameters and body have a scope each. -/
def FunctionDecl.resolve : FunctionDecl → Body → Context → Walk Unit
  | ⟨_, parameters, body, _⟩, kind, c => do
    let c ← ({ c with body := kind }.enter []).introduceAll parameters
    let _ ← resolveStmts body (c.enter [])
    return ()

/-- A statement passes on the names that it adds to the innermost scope. -/
def Stmt.resolve : Stmt → Context → Walk Context
  | .block body, c => do
    let _ ← resolveStmts body (c.enter [])
    return c
  | .expression value, c => do
    value.resolve c
    return c
  | .print value, c => do
    value.resolve c
    return c
  | .var bindings, c => do
    let c ← c.declareAll (bindings.map Prod.fst)
    resolveBindings bindings c
    return bindings.foldl (fun c b => c.define b.1) c
  | .function decl, c => do
    let c ← c.introduceAll decl.name.toList
    decl.resolve .function c
    return c
  | .classDecl name methods, c => do
    let c ← c.introduceAll [name]
    resolveMethods methods c.enterClass
    return c
  | .conditional condition whenTrue none, c => do
    condition.resolve c
    whenTrue.resolve c
  | .conditional condition whenTrue (some whenFalse), c => do
    condition.resolve c
    let c ← whenTrue.resolve c
    whenFalse.resolve c
  | .loop condition body none, c => do
    condition.resolve c
    body.resolve c
  | .loop condition body (some increment), c => do
    condition.resolve c
    let c ← body.resolve c
    increment.resolve c
    return c
  | .returning keyword none, c =>
    if c.body = .none then Walk.reject .returnAtTopLevel keyword else pure c
  | .returning keyword (some value), c =>
    if c.body = .none then Walk.reject .returnAtTopLevel keyword
    else if c.body = .initializer then Walk.reject .valueFromInitializer keyword
    else do
      value.resolve c
      return c
  | .breaking _, c => pure c
  | .continuing _, c => pure c

def resolveStmts : List Stmt → Context → Walk Context
  | [], c => pure c
  | s :: rest, c => do
    let c ← s.resolve c
    resolveStmts rest c

/-- The initial values of variables, in order. -/
def resolveBindings : List (Token × Option Expr) → Context → Walk Unit
  | [], _ => pure ()
  | (_, none) :: rest, c => resolveBindings rest c
  | (_, some value) :: rest, c => do
    value.resolve c
    resolveBindings rest c

def resolveMethods : List FunctionDecl → Context → Walk Unit
  | [], _ => pure ()
  | f :: rest, c => do
    f.resolve f.methodBody c
    resolveMethods rest c

end

def resolveProgram (program : List Stmt) : Walk Unit := do
  let _ ← resolveStmts program .top
  return ()

end TreeWalk
