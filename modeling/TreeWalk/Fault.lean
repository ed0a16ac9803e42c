import TreeWalk.Value

/-!
# Faults of a running program

A fault is a runtime error with the line it arose on and the calls that were active, or a value that
could not be converted.
-/

namespace TreeWalk

/-- Why a program stopped. -/
inductive RunCause where
  | undefinedVariable (name : String)
  | undefinedProperty (name : String)
  | notCallable (type : TypeName)
  | wrongArgumentCount (arity : Arity) (count : Nat)
  | stackOverflow
  | noProperties
  | noFields
  | notIndexable (type : TypeName)
  /-- The position is shown as a value with its type. -/
  | positionNotWhole (shown : String)
  | positionOutOfRange (position : Int) (length : Nat)
  | unknownUnary (lexeme : String)
  | unknownBinary (lexeme : String)
  | noLength (type : TypeName)
  | returnAtTopLevel
  | jumpAtTopLevel
deriving DecidableEq, Repr

/-- What a value was to become. -/
inductive Target where
  | int
  | float
  | string
deriving DecidableEq, Repr

inductive Fault where
  /-- The calls in `trace` were active, innermost first. -/
  | runtime (cause : RunCause) (line : Nat) (trace : List String)
  /-- The value is shown with its type. -/
  | conversion (shown : String) (target : Target)
deriving DecidableEq, Repr

namespace Fault

/-- A runtime error outside of all calls. -/
def onLine (line : Nat) (cause : RunCause) : Fault :=
  runtime cause line []

end Fault

/-- At most so many calls are active at a time. -/
def maxDepth : Nat := 8192

/-- The calls that a trace names before it only counts them. -/
def traceLimit : Nat := 16

/-- The name of what surrounds all calls. -/
def scriptName : String := "<script>"

/-- The names of active calls, innermost first: the first sixteen, and how many there are beyond. -/
def renderTrace (names : List String) : List String :=
  if traceLimit < names.length then
    names.take traceLimit ++ ["... " ++ natText (names.length - traceLimit) ++ " more"]
  else names

/-- Gives a runtime error the trace of the active calls, unless it has one or there are none. -/
def Fault.withTrace (calls : List String) : Fault → Fault
  | .runtime cause line [] =>
    match calls with
    | [] => .runtime cause line []
    | _ => .runtime cause line (renderTrace calls ++ [scriptName])
  | fault => fault

end TreeWalk
