import TreeWalk.Machine.Step

/-!
# Runs of the machine

`State.run` takes steps until nothing waits any more. The number of steps is limited; a run that
needs more gives nothing. On top of it, `Machine.evaluate`, `Machine.execute` and `Machine.call` run
one expression, statement or call, and `Machine.interpret` a whole program.
-/

namespace TreeWalk

/-- How a run ended. -/
inductive Ending where
  | value (v : Value)
  | signal (s : Signal)
  | fault (f : Fault)

/-- The ending of a state for which nothing waits any more. -/
def State.ending? : State → Option Ending
  | ⟨.value v, [], _⟩ => some (.value v)
  | ⟨.signal s, [], _⟩ => some (.signal s)
  | ⟨.fault f, [], _⟩ => some (.fault f)
  | _ => none

/-- Takes at most `limit` steps. -/
def State.run : (limit : Nat) → State → Option (Ending × Machine)
  | 0, _ => none
  | limit + 1, s =>
    match s.ending? with
    | some ending => some (ending, s.machine)
    | none => run limit s.step

namespace Machine

/-- The value of an expression. -/
def evaluate (limit : Nat) (e : Expr) (m : Machine) : Option (Except Fault Value × Machine) :=
  match State.run limit ⟨.evaluate e, [], m⟩ with
  | some (.value v, m) => some (.ok v, m)
  | some (.fault f, m) => some (.error f, m)
  | _ => none

/-- The signal of a statement. -/
def execute (limit : Nat) (s : Stmt) (m : Machine) : Option (Except Fault Signal × Machine) :=
  match State.run limit ⟨.execute s, [], m⟩ with
  | some (.signal s, m) => some (.ok s, m)
  | some (.fault f, m) => some (.error f, m)
  | _ => none

/-- The value of a call on line `line`. -/
def call (limit : Nat) (callee : Value) (arguments : List Value) (line : Nat) (m : Machine) :
    Option (Except Fault Value × Machine) :=
  match State.run limit ⟨.invoke callee arguments line, [], m⟩ with
  | some (.value v, m) => some (.ok v, m)
  | some (.fault f, m) => some (.error f, m)
  | _ => none

/-- The fault of a statement that ends a program early. -/
def signalFault? (s : Stmt) : Signal → Option Fault
  | .normal => none
  | .returned _ => some (.onLine s.line .returnAtTopLevel)
  | .exitLoop | .nextRound => some (.onLine s.line .jumpAtTopLevel)

/-- A statement of a program: an expression has a value, other statements have none. -/
def interpretOne (limit : Nat) (s : Stmt) (m : Machine) :
    Option (Except Fault (Option Value) × Machine) :=
  match s with
  | .expression e => (m.evaluate limit e).map fun (outcome, m) => (outcome.map some, m)
  | s =>
    match m.execute limit s with
    | none => none
    | some (.error f, m) => some (.error f, m)
    | some (.ok signal, m) =>
      match signalFault? s signal with
      | some f => some (.error f, m)
      | none => some (.ok none, m)

/-- Runs the statements of a program up to the first fault; one value, or none, for each. -/
def interpret (limit : Nat) : List Stmt → Machine →
    Option (Except Fault (List (Option Value)) × Machine)
  | [], m => some (.ok [], m)
  | s :: rest, m =>
    match m.interpretOne limit s with
    | none => none
    | some (.error f, m) => some (.error f, m)
    | some (.ok v, m) =>
      match interpret limit rest m with
      | none => none
      | some (outcome, m) => some (outcome.map (v :: ·), m)

/-- Executes statements up to the first fault, whatever their signals: the signals, the fault if
there was one, and the machine. -/
def executeAll (limit : Nat) : List Stmt → Machine →
    Option (List Signal × Option Fault × Machine)
  | [], m => some ([], none, m)
  | s :: rest, m =>
    match m.execute limit s with
    | none => none
    | some (.error f, m) => some ([], some f, m)
    | some (.ok signal, m) =>
      match executeAll limit rest m with
      | none => none
      | some (signals, fault, m) => some (signal :: signals, fault, m)

end Machine

end TreeWalk
