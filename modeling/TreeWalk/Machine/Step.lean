import TreeWalk.Machine.Operator
import TreeWalk.Tree.Scoping

/-!
# Steps of the machine

`step` takes a state to the next one. To evaluate an expression or execute a statement, it attends
to the first part and pushes a frame for the rest; a value, a signal or a fault goes to the innermost
frame. A frame that does not wait for what reaches it lets it pass. Frames that restore the scope or
leave a call do so whatever reaches them.
-/

namespace TreeWalk

namespace State

/-- Attends to a value, or to the fault in its place. -/
def settle (outcome : Except Fault Value) (stack : List Frame) (m : Machine) : State :=
  match outcome with
  | .ok v => ⟨.value v, stack, m⟩
  | .error f => ⟨.fault f, stack, m⟩

def runStmts (stmts : List Stmt) (stack : List Frame) (m : Machine) : State :=
  match stmts with
  | [] => ⟨.signal .normal, stack, m⟩
  | s :: rest => ⟨.execute s, .sequence rest :: stack, m⟩

/-- `++` or `--` on a variable, found by its name from the current scope outwards. -/
def stepVariable (operator : Token) (size : Float) (name : Token) (fixity : Fixity)
    (stack : List Frame) (m : Machine) : State :=
  match m.heap.scopes.holder? m.scope name.lexeme with
  | none => ⟨.fault (Machine.undefined name), stack, m⟩
  | some e =>
    match m.heap.scopes.here? e name.lexeme with
    | none => ⟨.fault (Machine.undefined name), stack, m⟩
    | some v =>
      match m.heap.number v with
      | .error f => ⟨.fault f, stack, m⟩
      | .ok x =>
        settle (m.heap.unary operator fixity v) stack (m.store e name (.ofFloat (x + size)))

/-- A unary operator; `++` and `--` change an operand that is a variable. -/
def unary (operator : Token) (operand : Expr) (fixity : Fixity) (stack : List Frame)
    (m : Machine) : State :=
  match operand, stepSize? operator with
  | .variable _ name, some size => stepVariable operator size name fixity stack m
  | _, _ => ⟨.evaluate operand, .unary operator fixity :: stack, m⟩

/-- Evaluates the arguments that are left, then calls. -/
def argumentsFrom (callee : Value) (paren : Token) (done : List Value) (todo : List Expr)
    (stack : List Frame) (m : Machine) : State :=
  match todo with
  | [] => ⟨.invoke callee done.reverse paren.line, stack, m⟩
  | e :: todo => ⟨.evaluate e, .arguments callee paren done todo :: stack, m⟩

/-- Evaluates the elements that are left, then makes the array. -/
def elementsFrom (done : List Value) (todo : List Expr) (stack : List Frame) (m : Machine) : State :=
  match todo with
  | [] =>
    let (v, heap) := m.heap.newArray done.reverse
    ⟨.value v, stack, { m with heap := heap }⟩
  | e :: todo => ⟨.evaluate e, .elements done todo :: stack, m⟩

/-- Gives the variables that are left their values, one after the other. -/
def variablesFrom (bindings : List (Token × Option Expr)) (stack : List Frame) (m : Machine) :
    State :=
  match bindings with
  | [] => ⟨.signal .normal, stack, m⟩
  | (name, none) :: rest => variablesFrom rest stack (m.define name.lexeme .nil)
  | (name, some value) :: rest => ⟨.evaluate value, .var name rest :: stack, m⟩

/-- Makes a function of a declaration in the current scope. -/
def makeFunction (decl : FunctionDecl) (m : Machine) : Value × Machine :=
  let (v, heap) := m.heap.newFunction ⟨decl, m.scope, false⟩
  (v, { m with heap := heap })

def evaluate (e : Expr) (stack : List Frame) (m : Machine) : State :=
  match e with
  | .literal value => ⟨.value (.ofLiteral value), stack, m⟩
  | .group inner => ⟨.evaluate inner, stack, m⟩
  | .unary operator operand fixity => unary operator operand fixity stack m
  | .binary left operator right => ⟨.evaluate left, .binaryLeft operator right :: stack, m⟩
  | .logical left operator right => ⟨.evaluate left, .logical operator right :: stack, m⟩
  | .ternary condition whenTrue whenFalse =>
    ⟨.evaluate condition, .ternary whenTrue whenFalse :: stack, m⟩
  | .variable reference name => settle (m.lookUp reference name) stack m
  | .this reference keyword => settle (m.lookUp reference keyword) stack m
  | .assign reference name value => ⟨.evaluate value, .assign reference name :: stack, m⟩
  | .call callee paren arguments => ⟨.evaluate callee, .callee paren arguments :: stack, m⟩
  | .array _ elements => elementsFrom [] elements stack m
  | .index collection bracket position =>
    ⟨.evaluate collection, .collection bracket position :: stack, m⟩
  | .get object name => ⟨.evaluate object, .get name :: stack, m⟩
  | .set object name value => ⟨.evaluate object, .setObject name value :: stack, m⟩
  | .lambda decl =>
    let (v, m) := makeFunction decl m
    ⟨.value v, stack, m⟩

/-- The methods of a class, made in scope `e`. Of two with one name the later one counts. -/
def methodTable (e : Nat) (methods : List FunctionDecl) : Table Function :=
  methods.foldl
    (fun t decl => t.set decl.label ⟨decl, e, decl.label = initializerName⟩) []

def execute (s : Stmt) (stack : List Frame) (m : Machine) : State :=
  match s with
  | .expression value => ⟨.evaluate value, .expression :: stack, m⟩
  | .print value => ⟨.evaluate value, .print :: stack, m⟩
  | .var bindings => variablesFrom bindings stack m
  | .function decl =>
    let (v, m) := makeFunction decl m
    ⟨.signal .normal, stack, m.define decl.label v⟩
  | .classDecl name methods =>
    let (v, heap) := m.heap.newClass ⟨name.lexeme, methodTable m.scope methods⟩
    ⟨.signal .normal, stack, { m with heap := heap }.define name.lexeme v⟩
  | .block body => runStmts body (.restore m.scope :: stack) (m.enterScope m.scope)
  | .conditional condition whenTrue whenFalse =>
    ⟨.evaluate condition, .conditional whenTrue whenFalse :: stack, m⟩
  | .loop condition body increment =>
    ⟨.evaluate condition, .condition ⟨condition, body, increment⟩ :: stack, m⟩
  | .returning _ none => ⟨.signal (.returned .nil), stack, m⟩
  | .returning _ (some value) => ⟨.evaluate value, .returning :: stack, m⟩
  | .breaking _ => ⟨.signal .exitLoop, stack, m⟩
  | .continuing _ => ⟨.signal .nextRound, stack, m⟩

/-- How many arguments a value takes when it is called; nothing if it cannot be called. -/
def arity? (h : Heap) : Value → Option Arity
  | .builtin b => some b.arity
  | .function r => some (h.function r).arity
  | .class_ r =>
    match (h.class_ r).methods.get? initializerName with
    | some f => some f.arity
    | none => some (.exactly 0)
  | _ => none

/-- The name under which a call is traced. -/
def calleeName (h : Heap) : Value → String
  | .builtin b => b.name
  | .function r => (h.function r).decl.label
  | .class_ r => (h.class_ r).name
  | _ => ""

/-- Gives parameters their arguments in scope `e`. -/
def bindParameters (h : Heap) (e : Nat) (parameters : List Token) (arguments : List Value) : Heap :=
  (parameters.zip arguments).foldl (fun h p => h.define e p.1.lexeme p.2) h

/-- Runs the body of a function: a scope for the parameters, and one in it for the body. -/
def enterBody (f : Function) (arguments : List Value) (stack : List Frame) (m : Machine) : State :=
  let (parameters, heap) := m.heap.newScope f.scope
  let heap := bindParameters heap parameters f.decl.parameters arguments
  runStmts f.decl.body (.restore m.scope :: .body f :: stack)
    ({ m with heap := heap }.enterScope parameters)

/-- Makes an instance of class `r` and runs its initializer, if there is one. -/
def instantiate (r : Nat) (arguments : List Value) (stack : List Frame) (m : Machine) : State :=
  let (target, heap) := m.heap.newInstance r
  match (heap.class_ r).methods.get? initializerName with
  | none => ⟨.value (.instance_ target), stack, { m with heap := heap }⟩
  | some f =>
    let (bound, heap) := heap.bindMethod f target
    enterBody bound arguments (.construct target :: stack) { m with heap := heap }

/-- The first step of a call that has been entered. -/
def enterCallee (callee : Value) (arguments : List Value) (line : Nat) (stack : List Frame)
    (m : Machine) : State :=
  match callee with
  | .builtin b =>
    let (outcome, heap) := b.apply m.heap m.time line arguments
    settle outcome stack { m with heap := heap }
  | .function r => enterBody (m.heap.function r) arguments stack m
  | .class_ r => instantiate r arguments stack m
  | _ => ⟨.fault (.onLine line (.notCallable callee.type)), stack, m⟩

/-- A call: the number of arguments and the number of active calls are checked first. -/
def invoke (callee : Value) (arguments : List Value) (line : Nat) (stack : List Frame)
    (m : Machine) : State :=
  match arity? m.heap callee with
  | none => ⟨.fault (.onLine line (.notCallable callee.type)), stack, m⟩
  | some arity =>
    if !arity.accepts arguments.length then
      ⟨.fault (.onLine line (.wrongArgumentCount arity arguments.length)), stack, m⟩
    else if maxDepth ≤ m.depth then
      ⟨.fault ((Fault.onLine line .stackOverflow).withTrace m.calls), stack, m⟩
    else
      enterCallee callee arguments line (.leave :: stack) (m.enterCall (calleeName m.heap callee))

/-- The property of an instance: a field, or else a method bound to the instance. -/
def property (r : Nat) (name : Token) (stack : List Frame) (m : Machine) : State :=
  match (m.heap.instance_ r).fields.get? name.lexeme with
  | some v => ⟨.value v, stack, m⟩
  | none =>
    match (m.heap.classOf r).methods.get? name.lexeme with
    | some f =>
      let (bound, heap) := m.heap.bindMethod f r
      let (v, heap) := heap.newFunction bound
      ⟨.value v, stack, { m with heap := heap }⟩
    | none => ⟨.fault (.onLine name.line (.undefinedProperty name.lexeme)), stack, m⟩

/-- Another round of a loop: what runs between rounds, if anything, and the condition. -/
def nextRound (loop : Loop) (stack : List Frame) (m : Machine) : State :=
  match loop.increment with
  | some increment => ⟨.evaluate increment, .increment loop :: stack, m⟩
  | none => ⟨.evaluate loop.condition, .condition loop :: stack, m⟩

def giveValue (v : Value) (frame : Frame) (stack : List Frame) (m : Machine) : State :=
  match frame with
  | .unary operator fixity => settle (m.heap.unary operator fixity v) stack m
  | .binaryLeft operator right => ⟨.evaluate right, .binaryRight v operator :: stack, m⟩
  | .binaryRight left operator => settle (m.heap.binary left operator v) stack m
  | .logical operator right =>
    if logicalDecides operator v then ⟨.value v, stack, m⟩ else ⟨.evaluate right, stack, m⟩
  | .ternary whenTrue whenFalse =>
    ⟨.evaluate (if v.isTruthy then whenTrue else whenFalse), stack, m⟩
  | .assign reference name =>
    match m.holder? reference name with
    | some e => ⟨.value v, stack, m.store e name v⟩
    | none => ⟨.fault (Machine.undefined name), stack, m⟩
  | .callee paren arguments =>
    if (arity? m.heap v).isSome then argumentsFrom v paren [] arguments stack m
    else ⟨.fault (.onLine paren.line (.notCallable v.type)), stack, m⟩
  | .arguments callee paren done todo => argumentsFrom callee paren (v :: done) todo stack m
  | .elements done todo => elementsFrom (v :: done) todo stack m
  | .collection bracket position => ⟨.evaluate position, .position v bracket :: stack, m⟩
  | .position collection bracket => settle (m.heap.index collection bracket v) stack m
  | .get name =>
    match v with
    | .instance_ r => property r name stack m
    | _ => ⟨.fault (.onLine name.line .noProperties), stack, m⟩
  | .setObject name value =>
    match v with
    | .instance_ r => ⟨.evaluate value, .setValue r name :: stack, m⟩
    | _ => ⟨.fault (.onLine name.line .noFields), stack, m⟩
  | .setValue target name =>
    ⟨.value v, stack, { m with heap := m.heap.setField target name.lexeme v }⟩
  | .expression => ⟨.signal .normal, stack, m⟩
  | .print => ⟨.signal .normal, stack, m.printLine (m.heap.text v)⟩
  | .var name rest => variablesFrom rest stack (m.define name.lexeme v)
  | .conditional whenTrue whenFalse =>
    if v.isTruthy then ⟨.execute whenTrue, stack, m⟩
    else match whenFalse with
      | some whenFalse => ⟨.execute whenFalse, stack, m⟩
      | none => ⟨.signal .normal, stack, m⟩
  | .condition loop =>
    if v.isTruthy then ⟨.execute loop.body, .round loop :: stack, m⟩
    else ⟨.signal .normal, stack, m⟩
  | .increment loop => ⟨.evaluate loop.condition, .condition loop :: stack, m⟩
  | .returning => ⟨.signal (.returned v), stack, m⟩
  | .restore scope => ⟨.value v, stack, { m with scope := scope }⟩
  | .construct target => ⟨.value (.instance_ target), stack, m⟩
  | .leave => ⟨.value v, stack, m.leaveCall⟩
  | .sequence _ | .round _ | .body _ => ⟨.value v, stack, m⟩

/-- What a call gives when the body of its function has ended. -/
def bodyValue (f : Function) (s : Signal) (m : Machine) : Except Fault Value :=
  if f.isInitializer then
    match m.heap.scopes.getAt? f.scope 0 "this" with
    | some v => .ok v
    | none => .error (.onLine f.decl.keyword.line (.undefinedVariable "this"))
  else match s with
    | .returned v => .ok v
    | _ => .ok .nil

def giveSignal (s : Signal) (frame : Frame) (stack : List Frame) (m : Machine) : State :=
  match frame with
  | .sequence rest =>
    match s with
    | .normal => runStmts rest stack m
    | _ => ⟨.signal s, stack, m⟩
  | .round loop =>
    match s with
    | .exitLoop => ⟨.signal .normal, stack, m⟩
    | .returned v => ⟨.signal (.returned v), stack, m⟩
    | .normal | .nextRound => nextRound loop stack m
  | .restore scope => ⟨.signal s, stack, { m with scope := scope }⟩
  | .body f => settle (bodyValue f s m) stack m
  | .leave => ⟨.signal s, stack, m.leaveCall⟩
  | _ => ⟨.signal s, stack, m⟩

/-- A fault reaches a frame. On its way out of the innermost call a runtime error picks up the names
of the active calls. -/
def giveFault (f : Fault) (frame : Frame) (stack : List Frame) (m : Machine) : State :=
  match frame with
  | .restore scope => ⟨.fault f, stack, { m with scope := scope }⟩
  | .leave => ⟨.fault (f.withTrace m.calls), stack, m.leaveCall⟩
  | _ => ⟨.fault f, stack, m⟩

/-- The next state. A state with an outcome and an empty stack is the last one. -/
def step : State → State
  | ⟨.evaluate e, stack, m⟩ => evaluate e stack m
  | ⟨.execute s, stack, m⟩ => execute s stack m
  | ⟨.invoke callee arguments line, stack, m⟩ => invoke callee arguments line stack m
  | ⟨.value v, frame :: stack, m⟩ => giveValue v frame stack m
  | ⟨.signal s, frame :: stack, m⟩ => giveSignal s frame stack m
  | ⟨.fault f, frame :: stack, m⟩ => giveFault f frame stack m
  | s => s

end State

end TreeWalk
