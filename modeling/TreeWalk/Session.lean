import TreeWalk.Diagnostic
import TreeWalk.Machine.Run

/-!
# Sessions

A session runs one unit of source after the other on one machine. A unit that is rejected before it
runs leaves the machine as it was, except for distances under references that no tree carries.
-/

namespace TreeWalk

structure Session where
  machine : Machine
  /-- The references below this one have been given out. -/
  nextReference : Nat

namespace Session

/-- A session in which nothing has run. -/
def start (time : Float) : Session := ⟨.initial time, 0⟩

/-- The statements of a source. -/
def parse (source : List UInt8) (s : Session) : Except Diagnostic (List Stmt) × Session :=
  match Lexer.tokens source with
  | .error f => (.error (.lexical f), s)
  | .ok tokens =>
    match parseProgram tokens s.nextReference with
    | (.error r, next) => (.error (.syntactic r), { s with nextReference := next })
    | (.ok program, next) => (.ok program, { s with nextReference := next })

/-- The expression that a source is. -/
def parseExpression (source : List UInt8) (s : Session) : Except Diagnostic Expr × Session :=
  match Lexer.tokens source with
  | .error f => (.error (.lexical f), s)
  | .ok tokens =>
    match TreeWalk.parseExpression tokens s.nextReference with
    | (.error f, next) => (.error (.syntactic ⟨f, []⟩), { s with nextReference := next })
    | (.ok e, next) => (.ok e, { s with nextReference := next })

/-- Looks for misuses of names and records where local variables live. -/
def resolve (program : List Stmt) (s : Session) : Except Diagnostic Unit × Session :=
  match resolveProgram program s.machine.distances with
  | .rejected f d => (.error (.scoping f), { s with machine := { s.machine with distances := d } })
  | .passed () d => (.ok (), { s with machine := { s.machine with distances := d } })

/-- Runs a program: one value, or none, for each statement. -/
def interpret (limit : Nat) (program : List Stmt) (s : Session) :
    Option (Except Diagnostic (List (Option Value)) × Session) :=
  match s.machine.interpret limit program with
  | none => none
  | some (outcome, m) => some (outcome.mapError .runtime, { s with machine := m })

/-- Reads a unit of source, checks it and runs it. -/
def run (limit : Nat) (source : List UInt8) (s : Session) :
    Option (Except Diagnostic (List (Option Value)) × Session) :=
  match s.parse source with
  | (.error d, s) => some (.error d, s)
  | (.ok program, s) =>
    match s.resolve program with
    | (.error d, s) => some (.error d, s)
    | (.ok (), s) => s.interpret limit program

/-- What has been written since this was last asked. -/
def takeOutput (s : Session) : String × Session :=
  (s.machine.output, { s with machine := { s.machine with output := "" } })

end Session

end TreeWalk
