import Mathlib.Logic.Relation
import TreeWalk.Proofs.History

/-!
# What a step does to the machine

A step does little at a time: it makes something new in the heap, gives a variable or a field a value,
writes a line, or sets the registers. `Machine.Edit` lists these operations, and whatever a step does to
the machine is some of them one after the other (`State.edits_step`). So what every operation keeps is
kept by every step, and by every run, without another look at the steps.
-/

namespace TreeWalk

namespace Machine

/-- One operation on a machine. -/
inductive Edit : Machine → Machine → Prop
  | registers (m : Machine) (scope : Nat) (calls : List String) (depth : Nat) :
      Edit m { m with scope := scope, calls := calls, depth := depth }
  | newFunction (m : Machine) (f : Function) : Edit m { m with heap := (m.heap.newFunction f).2 }
  | newClass (m : Machine) (c : Class) : Edit m { m with heap := (m.heap.newClass c).2 }
  | newInstance (m : Machine) (c : Nat) : Edit m { m with heap := (m.heap.newInstance c).2 }
  | newArray (m : Machine) (elements : List Value) :
      Edit m { m with heap := (m.heap.newArray elements).2 }
  | newScope (m : Machine) (outer : Nat) : Edit m { m with heap := (m.heap.newScope outer).2 }
  | define (m : Machine) (e : Nat) (x : String) (v : Value) :
      Edit m { m with heap := m.heap.define e x v }
  | setField (m : Machine) (r : Nat) (x : String) (v : Value) :
      Edit m { m with heap := m.heap.setField r x v }
  | print (m : Machine) (v : Value) : Edit m (m.printLine (m.heap.text v))

/-- Any number of operations one after the other. -/
abbrev Edits : Machine → Machine → Prop :=
  Relation.ReflTransGen Edit

theorem edits_enterScope (m : Machine) (outer : Nat) : m.Edits (m.enterScope outer) :=
  (Relation.ReflTransGen.single (.newScope m outer)).tail (.registers _ _ _ _)

theorem edits_bindMethod (m : Machine) (f : Function) (r : Nat) :
    m.Edits { m with heap := (m.heap.bindMethod f r).2 } :=
  (Relation.ReflTransGen.single (.newScope m f.scope)).tail (.define _ _ _ _)

theorem edits_bindParameters (m : Machine) (e : Nat) (parameters : List Token)
    (arguments : List Value) :
    m.Edits { m with heap := State.bindParameters m.heap e parameters arguments } := by
  unfold State.bindParameters
  generalize parameters.zip arguments = pairs
  induction pairs generalizing m with
  | nil => exact .refl
  | cons p pairs ih => exact (ih { m with heap := m.heap.define e p.1.lexeme p.2 }).head (.define m _ _ _)

/-- A builtin function makes an array at most. -/
theorem edits_apply (m : Machine) (b : Builtin) (line : Nat) (arguments : List Value) :
    m.Edits { m with heap := (b.apply m.heap m.time line arguments).2 } := by
  cases b with
  | array => exact .single (.newArray m arguments)
  | int | float | len =>
    unfold Builtin.apply
    dsimp only
    split <;> exact .refl
  | clock | type | bool | string => exact .refl

end Machine

namespace State

variable (stack : List Frame) (m : Machine)

/-! ### The parts of a step -/

theorem edits_settle (outcome : Except Fault Value) : m.Edits (settle outcome stack m).machine := by
  cases outcome <;> exact .refl

theorem edits_runStmts (ss : List Stmt) : m.Edits (runStmts ss stack m).machine := by
  cases ss <;> exact .refl

theorem edits_stepVariable (operator : Token) (size : Float) (name : Token) (fixity : Fixity) :
    m.Edits (stepVariable operator size name fixity stack m).machine := by
  unfold stepVariable
  split
  · exact .refl
  · next e _ =>
    split
    · exact .refl
    · split
      · exact .refl
      · exact (edits_settle stack _ _).head (.define m e _ _)

theorem edits_argumentsFrom (callee : Value) (paren : Token) (done : List Value)
    (todo : List Expr) : m.Edits (argumentsFrom callee paren done todo stack m).machine := by
  cases todo <;> exact .refl

theorem edits_elementsFrom (done : List Value) (todo : List Expr) :
    m.Edits (elementsFrom done todo stack m).machine := by
  cases todo with
  | nil => exact .single (.newArray m _)
  | cons e todo => exact .refl

theorem edits_variablesFrom (bindings : List (Token × Option Expr)) :
    m.Edits (variablesFrom bindings stack m).machine := by
  induction bindings generalizing m with
  | nil => exact .refl
  | cons b rest ih =>
    obtain ⟨name, _ | value⟩ := b
    · exact (ih (m.define name.lexeme .nil)).head (.define m _ _ _)
    · exact .refl

theorem edits_evaluate (e : Expr) : m.Edits (evaluate e stack m).machine := by
  cases e with
  | unary operator operand fixity =>
    show m.Edits (unary operator operand fixity stack m).machine
    unfold unary
    split
    · exact edits_stepVariable stack m operator _ _ fixity
    · exact .refl
  | «variable» | this => exact edits_settle stack m _
  | array bracket elements => exact edits_elementsFrom stack m [] elements
  | lambda decl => exact .single (.newFunction m _)
  | _ => exact .refl

theorem edits_execute (x : Stmt) : m.Edits (execute x stack m).machine := by
  cases x with
  | block body => exact (m.edits_enterScope m.scope).trans (edits_runStmts _ _ body)
  | var bindings => exact edits_variablesFrom stack m bindings
  | function decl => exact (Relation.ReflTransGen.single (.newFunction m _)).tail (.define _ _ _ _)
  | classDecl name methods =>
    exact (Relation.ReflTransGen.single (.newClass m _)).tail (.define _ _ _ _)
  | returning keyword value => cases value <;> exact .refl
  | _ => exact .refl

theorem edits_enterBody (f : Function) (arguments : List Value) :
    m.Edits (enterBody f arguments stack m).machine := by
  refine Relation.ReflTransGen.trans ?_ (edits_runStmts _ _ f.decl.body)
  refine Relation.ReflTransGen.head (.newScope m f.scope) ?_
  exact (Machine.edits_bindParameters _ _ f.decl.parameters arguments).trans
    (Machine.edits_enterScope _ _)

theorem edits_instantiate (r : Nat) (arguments : List Value) :
    m.Edits (instantiate r arguments stack m).machine := by
  unfold instantiate
  dsimp only
  refine Relation.ReflTransGen.head (.newInstance m r) ?_
  split
  · exact .refl
  · next f _ =>
    exact (Machine.edits_bindMethod { m with heap := (m.heap.newInstance r).2 } f _).trans
      (edits_enterBody _ _ _ arguments)

theorem edits_enterCallee (callee : Value) (arguments : List Value) (line : Nat) :
    m.Edits (enterCallee callee arguments line stack m).machine := by
  cases callee with
  | builtin b => exact (m.edits_apply b line arguments).trans (edits_settle stack _ _)
  | function r => exact edits_enterBody stack m _ arguments
  | class_ r => exact edits_instantiate stack m r arguments
  | _ => exact .refl

theorem edits_invoke (callee : Value) (arguments : List Value) (line : Nat) :
    m.Edits (invoke callee arguments line stack m).machine := by
  unfold invoke
  split
  · exact .refl
  · split
    · exact .refl
    · split
      · exact .refl
      · exact (edits_enterCallee _ _ callee arguments line).head (.registers m _ _ _)

theorem edits_property (r : Nat) (name : Token) : m.Edits (property r name stack m).machine := by
  unfold property
  split
  · exact .refl
  · split
    · next f _ => exact (m.edits_bindMethod f r).tail (.newFunction _ _)
    · exact .refl

theorem edits_giveValue (v : Value) (frame : Frame) :
    m.Edits (giveValue v frame stack m).machine := by
  cases frame with
  | unary | binaryRight | position => exact edits_settle stack m _
  | logical operator right =>
    rw [giveValue]
    split <;> exact .refl
  | assign reference name =>
    rw [giveValue]
    split
    · exact .single (.define m _ _ _)
    · exact .refl
  | callee paren arguments =>
    rw [giveValue]
    split
    · exact edits_argumentsFrom stack m v paren [] arguments
    · exact .refl
  | arguments => exact edits_argumentsFrom stack m _ _ _ _
  | elements => exact edits_elementsFrom stack m _ _
  | get name =>
    cases v with
    | instance_ r => exact edits_property stack m r name
    | _ => exact .refl
  | setObject name value => cases v <;> exact .refl
  | setValue target name => exact .single (.setField m _ _ _)
  | print => exact .single (.print m v)
  | var name rest => exact (edits_variablesFrom stack _ rest).head (.define m _ _ _)
  | conditional whenTrue whenFalse =>
    unfold giveValue
    dsimp only
    split
    · exact .refl
    · cases whenFalse <;> exact .refl
  | condition loop =>
    rw [giveValue]
    split <;> exact .refl
  | restore scope => exact .single (.registers m _ _ _)
  | leave => exact .single (.registers m _ _ _)
  | _ => exact .refl

theorem edits_giveSignal (s : Signal) (frame : Frame) :
    m.Edits (giveSignal s frame stack m).machine := by
  cases frame with
  | sequence rest =>
    cases s with
    | normal => exact edits_runStmts stack m rest
    | _ => exact .refl
  | round loop =>
    cases s with
    | normal | nextRound =>
      show m.Edits (nextRound loop stack m).machine
      unfold nextRound
      split <;> exact .refl
    | _ => exact .refl
  | restore scope => exact .single (.registers m _ _ _)
  | body f => exact edits_settle stack m _
  | leave => exact .single (.registers m _ _ _)
  | _ => exact .refl

theorem edits_giveFault (f : Fault) (frame : Frame) :
    m.Edits (giveFault f frame stack m).machine := by
  cases frame with
  | restore scope => exact .single (.registers m _ _ _)
  | leave => exact .single (.registers m _ _ _)
  | _ => exact .refl

/-! ### Steps and runs -/

/-- Whatever a step does to the machine is done by operations one after the other. -/
theorem edits_step (st : State) : st.machine.Edits st.step.machine := by
  obtain ⟨focus, stack, m⟩ := st
  cases focus with
  | evaluate e => exact edits_evaluate stack m e
  | execute x => exact edits_execute stack m x
  | invoke callee arguments line => exact edits_invoke stack m callee arguments line
  | value v =>
    cases stack with
    | nil => exact .refl
    | cons frame stack => exact edits_giveValue stack m v frame
  | signal s =>
    cases stack with
    | nil => exact .refl
    | cons frame stack => exact edits_giveSignal stack m s frame
  | fault f =>
    cases stack with
    | nil => exact .refl
    | cons frame stack => exact edits_giveFault stack m f frame

theorem edits_steps (st : State) (count : Nat) : st.machine.Edits (st.steps count).machine := by
  induction count generalizing st with
  | zero => exact .refl
  | succ count ih => exact (edits_step st).trans (ih st.step)

theorem edits_of_run {st : State} {limit : Nat} {ending : Ending} {m : Machine}
    (h : st.run limit = some (ending, m)) : st.machine.Edits m := by
  obtain ⟨-, rfl⟩ := steps_of_run h
  exact edits_steps st limit

end State

namespace Machine

variable {m m' : Machine} {limit : Nat}

theorem edits_of_evaluate {e : Expr} {outcome : Except Fault Value}
    (h : m.evaluate limit e = some (outcome, m')) : m.Edits m' :=
  State.edits_of_run (run_of_evaluate h)

theorem edits_of_execute {x : Stmt} {outcome : Except Fault Signal}
    (h : m.execute limit x = some (outcome, m')) : m.Edits m' :=
  State.edits_of_run (run_of_execute h)

theorem edits_of_call {callee : Value} {arguments : List Value} {line : Nat}
    {outcome : Except Fault Value} (h : m.call limit callee arguments line = some (outcome, m')) :
    m.Edits m' :=
  State.edits_of_run (run_of_call h)

end Machine

end TreeWalk
