import TreeWalk.Session

/-!
# What every run restores

The registers of a machine are all of it but heap, output and clock: the current scope, the active
calls, their number, the global scope and the distances. `State.unwound` reads off a state the
registers that will be left once every frame of its stack has been passed. A step never changes them
(`unwound_step`): whatever pushes a frame that restores a scope or leaves a call puts into it what it
is about to change. So a run ends with the registers it started with, however it ends, and a unit of
a session leaves the machine in its global scope with no call active.
-/

namespace TreeWalk

/-- A machine without heap, output and clock. -/
structure Registers where
  scope : Nat
  calls : List String
  depth : Nat
  globals : Nat
  distances : Distances

def Machine.registers (m : Machine) : Registers :=
  ⟨m.scope, m.calls, m.depth, m.globals, m.distances⟩

/-- What a frame does to the registers when a value, a signal or a fault passes it. -/
def Frame.release : Registers → Frame → Registers
  | r, .restore scope => { r with scope := scope }
  | r, .leave => { r with calls := r.calls.tail, depth := r.depth - 1 }
  | r, _ => r

/-- The registers behind a whole stack. -/
def unwind (stack : List Frame) (r : Registers) : Registers :=
  stack.foldl Frame.release r

/-- The registers once nothing waits any more. -/
def State.unwound (s : State) : Registers :=
  unwind s.stack s.machine.registers

@[simp]
theorem unwind_cons (f : Frame) (stack : List Frame) (r : Registers) :
    unwind (f :: stack) r = unwind stack (f.release r) := rfl

namespace Machine

variable (m : Machine)

@[simp]
theorem registers_heap (h : Heap) : { m with heap := h }.registers = m.registers := rfl

@[simp]
theorem registers_define (x : String) (v : Value) : (m.define x v).registers = m.registers := rfl

@[simp]
theorem registers_store (e : Nat) (name : Token) (v : Value) :
    (m.store e name v).registers = m.registers := rfl

@[simp]
theorem registers_printLine (line : String) : (m.printLine line).registers = m.registers := rfl

/-- A scope that was entered is left by restoring the one before. -/
@[simp]
theorem release_enterScope (e : Nat) :
    Frame.release (m.enterScope e).registers (.restore m.scope) = m.registers := rfl

@[simp]
theorem release_enterCall (name : String) :
    Frame.release (m.enterCall name).registers .leave = m.registers := rfl

@[simp]
theorem registers_leaveCall :
    m.leaveCall.registers = Frame.release m.registers .leave := rfl

@[simp]
theorem registers_scope (e : Nat) :
    { m with scope := e }.registers = Frame.release m.registers (.restore e) := rfl

end Machine

namespace State

/-! ### What each part of a step leaves to unwind -/

section

variable (stack : List Frame) (m : Machine)

@[simp]
theorem unwound_settle (outcome : Except Fault Value) :
    (settle outcome stack m).unwound = unwind stack m.registers := by
  cases outcome <;> rfl

@[simp]
theorem unwound_runStmts (stmts : List Stmt) :
    (runStmts stmts stack m).unwound = unwind stack m.registers := by
  cases stmts <;> rfl

theorem unwound_stepVariable (operator : Token) (size : Float) (name : Token) (fixity : Fixity) :
    (stepVariable operator size name fixity stack m).unwound = unwind stack m.registers := by
  unfold stepVariable
  repeat' split
  all_goals first | rfl | simp

theorem unwound_unary (operator : Token) (operand : Expr) (fixity : Fixity) :
    (unary operator operand fixity stack m).unwound = unwind stack m.registers := by
  unfold unary
  split
  · exact unwound_stepVariable stack m operator _ _ fixity
  · rfl

@[simp]
theorem unwound_argumentsFrom (callee : Value) (paren : Token) (done : List Value)
    (todo : List Expr) :
    (argumentsFrom callee paren done todo stack m).unwound = unwind stack m.registers := by
  cases todo <;> rfl

@[simp]
theorem unwound_elementsFrom (done : List Value) (todo : List Expr) :
    (elementsFrom done todo stack m).unwound = unwind stack m.registers := by
  cases todo <;> rfl

@[simp]
theorem unwound_variablesFrom (bindings : List (Token × Option Expr)) :
    (variablesFrom bindings stack m).unwound = unwind stack m.registers := by
  induction bindings generalizing m with
  | nil => rfl
  | cons b rest ih =>
    obtain ⟨name, _ | value⟩ := b
    · rw [variablesFrom, ih, Machine.registers_define]
    · rfl

theorem unwound_evaluate (e : Expr) : (evaluate e stack m).unwound = unwind stack m.registers := by
  cases e with
  | unary operator operand fixity => exact unwound_unary stack m operator operand fixity
  | «variable» reference name => exact unwound_settle stack m _
  | this reference keyword => exact unwound_settle stack m _
  | array bracket elements => exact unwound_elementsFrom stack m [] elements
  | _ => rfl

theorem unwound_execute (s : Stmt) : (execute s stack m).unwound = unwind stack m.registers := by
  cases s with
  | block body => rw [execute, unwound_runStmts, unwind_cons, Machine.release_enterScope]
  | var bindings => exact unwound_variablesFrom stack m bindings
  | returning keyword value => cases value <;> rfl
  | _ => rfl

@[simp]
theorem unwound_enterBody (f : Function) (arguments : List Value) :
    (enterBody f arguments stack m).unwound = unwind stack m.registers := by
  rw [enterBody, unwound_runStmts]
  rfl

@[simp]
theorem unwound_instantiate (r : Nat) (arguments : List Value) :
    (instantiate r arguments stack m).unwound = unwind stack m.registers := by
  unfold instantiate
  dsimp only
  split
  · rfl
  · rw [unwound_enterBody]
    rfl

theorem unwound_enterCallee (callee : Value) (arguments : List Value) (line : Nat) :
    (enterCallee callee arguments line stack m).unwound = unwind stack m.registers := by
  cases callee with
  | builtin b => exact unwound_settle stack _ _
  | function r => exact unwound_enterBody stack m _ arguments
  | class_ r => exact unwound_instantiate stack m r arguments
  | _ => rfl

theorem unwound_invoke (callee : Value) (arguments : List Value) (line : Nat) :
    (invoke callee arguments line stack m).unwound = unwind stack m.registers := by
  unfold invoke
  split
  · rfl
  · split
    · rfl
    · split
      · rfl
      · rw [unwound_enterCallee, unwind_cons, Machine.release_enterCall]

theorem unwound_property (r : Nat) (name : Token) :
    (property r name stack m).unwound = unwind stack m.registers := by
  unfold property
  repeat' split
  all_goals rfl

theorem unwound_nextRound (loop : Loop) :
    (nextRound loop stack m).unwound = unwind stack m.registers := by
  unfold nextRound
  split <;> rfl

theorem unwound_giveValue (v : Value) (frame : Frame) :
    (giveValue v frame stack m).unwound = unwind (frame :: stack) m.registers := by
  cases frame with
  | logical operator right => rw [giveValue]; split <;> rfl
  | assign reference name => rw [giveValue]; split <;> rfl
  | callee paren arguments =>
    rw [giveValue]
    split
    · exact unwound_argumentsFrom stack m v paren [] arguments
    · rfl
  | get name =>
    cases v with
    | instance_ r => exact unwound_property stack m r name
    | _ => rfl
  | setObject name value => cases v <;> rfl
  | conditional whenTrue whenFalse =>
    unfold giveValue
    dsimp only
    split
    · rfl
    · cases whenFalse <;> rfl
  | condition loop => rw [giveValue]; split <;> rfl
  | var name rest => exact unwound_variablesFrom stack _ rest
  | unary | binaryRight | position => exact unwound_settle stack m _
  | arguments => exact unwound_argumentsFrom stack m _ _ _ _
  | elements => exact unwound_elementsFrom stack m _ _
  | _ => rfl

theorem unwound_giveSignal (s : Signal) (frame : Frame) :
    (giveSignal s frame stack m).unwound = unwind (frame :: stack) m.registers := by
  cases frame with
  | sequence rest =>
    cases s with
    | normal => exact unwound_runStmts stack m rest
    | _ => rfl
  | round loop =>
    cases s with
    | normal | nextRound => exact unwound_nextRound stack m loop
    | _ => rfl
  | body f => exact unwound_settle stack m _
  | _ => rfl

theorem unwound_giveFault (f : Fault) (frame : Frame) :
    (giveFault f frame stack m).unwound = unwind (frame :: stack) m.registers := by
  cases frame <;> rfl

end

/-- A step leaves what there is to unwind as it is. -/
theorem unwound_step (s : State) : s.step.unwound = s.unwound := by
  obtain ⟨focus, stack, m⟩ := s
  cases focus with
  | evaluate e => exact unwound_evaluate stack m e
  | execute s => exact unwound_execute stack m s
  | invoke callee arguments line => exact unwound_invoke stack m callee arguments line
  | value v =>
    cases stack with
    | nil => rfl
    | cons frame stack => exact unwound_giveValue stack m v frame
  | signal s =>
    cases stack with
    | nil => rfl
    | cons frame stack => exact unwound_giveSignal stack m s frame
  | fault f =>
    cases stack with
    | nil => rfl
    | cons frame stack => exact unwound_giveFault stack m f frame

theorem stack_of_ending? {s : State} {ending : Ending} (h : s.ending? = some ending) :
    s.stack = [] := by
  obtain ⟨focus, stack, m⟩ := s
  cases stack with
  | nil => rfl
  | cons frame stack => cases focus <;> simp [ending?] at h

theorem registers_of_run {limit : Nat} {s : State} {ending : Ending} {m : Machine}
    (h : s.run limit = some (ending, m)) : m.registers = s.unwound := by
  induction limit generalizing s with
  | zero => simp [run] at h
  | succ limit ih =>
    rw [run] at h
    split at h
    · next ending' he =>
      obtain ⟨-, rfl⟩ : ending' = ending ∧ s.machine = m := by simpa using h
      rw [unwound, stack_of_ending? he]
      rfl
    · rw [ih h, unwound_step]

end State

/-- The ending of a run that has this outcome. -/
def Ending.ofValue : Except Fault Value → Ending
  | .ok v => .value v
  | .error f => .fault f

def Ending.ofSignal : Except Fault Signal → Ending
  | .ok s => .signal s
  | .error f => .fault f

namespace Machine

variable {limit : Nat} {m m' : Machine}

/-! ### Expressions, statements and calls are runs -/

theorem run_of_evaluate {e : Expr} {outcome : Except Fault Value}
    (h : m.evaluate limit e = some (outcome, m')) :
    State.run limit ⟨.evaluate e, [], m⟩ = some (.ofValue outcome, m') := by
  unfold evaluate at h
  split at h
  · next hr => cases h; exact hr
  · next hr => cases h; exact hr
  · cases h

theorem run_of_execute {s : Stmt} {outcome : Except Fault Signal}
    (h : m.execute limit s = some (outcome, m')) :
    State.run limit ⟨.execute s, [], m⟩ = some (.ofSignal outcome, m') := by
  unfold execute at h
  split at h
  · next hr => cases h; exact hr
  · next hr => cases h; exact hr
  · cases h

theorem run_of_call {callee : Value} {arguments : List Value} {line : Nat}
    {outcome : Except Fault Value} (h : m.call limit callee arguments line = some (outcome, m')) :
    State.run limit ⟨.invoke callee arguments line, [], m⟩ = some (.ofValue outcome, m') := by
  unfold call at h
  split at h
  · next hr => cases h; exact hr
  · next hr => cases h; exact hr
  · cases h

/-! ### What runs leave in the registers -/

theorem registers_of_evaluate {e : Expr} {outcome : Except Fault Value}
    (h : m.evaluate limit e = some (outcome, m')) : m'.registers = m.registers :=
  State.registers_of_run (run_of_evaluate h)

theorem registers_of_execute {s : Stmt} {outcome : Except Fault Signal}
    (h : m.execute limit s = some (outcome, m')) : m'.registers = m.registers :=
  State.registers_of_run (run_of_execute h)

theorem registers_of_call {callee : Value} {arguments : List Value} {line : Nat}
    {outcome : Except Fault Value} (h : m.call limit callee arguments line = some (outcome, m')) :
    m'.registers = m.registers :=
  State.registers_of_run (run_of_call h)

theorem registers_of_interpretOne {s : Stmt} {outcome : Except Fault (Option Value)}
    (h : m.interpretOne limit s = some (outcome, m')) : m'.registers = m.registers := by
  unfold interpretOne at h
  split at h
  · obtain ⟨⟨_, _⟩, he, heq⟩ := Option.map_eq_some_iff.1 h
    cases heq
    exact registers_of_evaluate he
  · split at h
    · cases h
    · next he => cases h; exact registers_of_execute he
    · next he => split at h <;> cases h <;> exact registers_of_execute he

theorem registers_of_interpret {program : List Stmt}
    {outcome : Except Fault (List (Option Value))}
    (h : m.interpret limit program = some (outcome, m')) : m'.registers = m.registers := by
  induction program generalizing m outcome with
  | nil => cases h; rfl
  | cons s rest ih =>
    unfold interpret at h
    split at h
    · cases h
    · next hs => cases h; exact registers_of_interpretOne hs
    · next hs =>
      split at h
      · cases h
      · next hi => cases h; exact (ih hi).trans (registers_of_interpretOne hs)

end Machine

namespace Session

/-- The sessions that units of source lead to. -/
inductive Reachable (time : Float) : Session → Prop
  | start : Reachable time (start time)
  | run {limit : Nat} {source : List UInt8} {s s' : Session}
      {result : Except Diagnostic (List (Option Value))} (hs : Reachable time s)
      (h : s.run limit source = some (result, s')) : Reachable time s'

/-- No scope is open and no call is active. -/
structure Idle (s : Session) : Prop where
  scope : s.machine.scope = s.machine.globals
  calls : s.machine.calls = []
  depth : s.machine.depth = 0

variable {s s' : Session}

theorem Idle.of_eq (h : s.Idle) (hs : s'.machine.scope = s.machine.scope)
    (hg : s'.machine.globals = s.machine.globals) (hc : s'.machine.calls = s.machine.calls)
    (hd : s'.machine.depth = s.machine.depth) : s'.Idle :=
  ⟨by rw [hs, hg, h.scope], by rw [hc, h.calls], by rw [hd, h.depth]⟩

theorem Idle.of_registers (h : s.Idle) (hr : s'.machine.registers = s.machine.registers) :
    s'.Idle :=
  h.of_eq (congrArg Registers.scope hr) (congrArg Registers.globals hr)
    (congrArg Registers.calls hr) (congrArg Registers.depth hr)

theorem machine_parse (source : List UInt8) (s : Session) :
    (s.parse source).2.machine = s.machine := by
  unfold parse
  repeat' split
  all_goals rfl

/-- Reading a unit changes no register, checking it only the distances. -/
theorem Idle.resolve (h : s.Idle) (program : List Stmt) : (s.resolve program).2.Idle := by
  unfold Session.resolve
  split <;> exact h.of_eq rfl rfl rfl rfl

theorem Idle.run {limit : Nat} {source : List UInt8}
    {result : Except Diagnostic (List (Option Value))} (h : s.Idle)
    (hr : s.run limit source = some (result, s')) : s'.Idle := by
  have hp : (s.parse source).2.Idle := by
    have hm := machine_parse source s
    exact h.of_eq (by rw [hm]) (by rw [hm]) (by rw [hm]) (by rw [hm])
  unfold Session.run at hr
  split at hr
  · next heq => rw [heq] at hp; cases hr; exact hp
  · next program s₁ heq =>
    rw [heq] at hp
    have hres := Idle.resolve hp program
    split at hr
    · next heq => rw [heq] at hres; cases hr; exact hres
    · next heq =>
      rw [heq] at hres
      unfold Session.interpret at hr
      split at hr
      · cases hr
      · next hi => cases hr; exact hres.of_registers (Machine.registers_of_interpret hi)

theorem Reachable.idle {time : Float} (h : Reachable time s) : s.Idle := by
  induction h with
  | start => exact ⟨rfl, rfl, rfl⟩
  | run _ hr ih => exact ih.run hr

end Session

/-- However an expression, a statement, a call or a block in any scope ends, the registers are those
before it; and between the units of a session no scope is open and no call is active. -/
theorem registers_restored (limit : Nat) (m m' : Machine) :
    (∀ e outcome, m.evaluate limit e = some (outcome, m') → m'.registers = m.registers) ∧
    (∀ s outcome, m.execute limit s = some (outcome, m') → m'.registers = m.registers) ∧
    (∀ callee arguments line outcome, m.call limit callee arguments line = some (outcome, m') →
      m'.registers = m.registers) ∧
    (∀ body e ending,
      (State.runStmts body [.restore m.scope] { m with scope := e }).run limit = some (ending, m') →
      m'.registers = m.registers) ∧
    (∀ time s source result s', Session.Reachable time s →
      s.run limit source = some (result, s') → s'.Idle) := by
  refine ⟨fun e _ h => Machine.registers_of_evaluate h, fun s _ h => Machine.registers_of_execute h,
    fun _ _ _ _ h => Machine.registers_of_call h, fun body e _ h => ?_,
    fun _ _ _ _ _ hs h => hs.idle.run h⟩
  rw [State.registers_of_run h, State.unwound_runStmts]
  rfl

/-- A lambda whose body fails inside a block, called at once. -/
def failingCall : Expr :=
  let name : Token := ⟨.identifier, "x", 1⟩
  .call (.lambda ⟨none, [], [.block [.expression (.variable 0 name)]], name⟩) name []

/-- Faults inside a block of a call, in a statement, in a builtin function, in a block that runs in
a scope of its own and in a unit of source leave the registers as they were. -/
theorem registers_restored_on_faults :
    let m := Machine.initial 0
    (∃ f m', m.evaluate 20 failingCall = some (.error f, m') ∧ m'.registers = m.registers) ∧
    (∃ f m', m.execute 20 (.block [.expression failingCall]) = some (.error f, m') ∧
      m'.registers = m.registers) ∧
    (∃ f m', m.call 20 (.builtin .len) [.nil] 1 = some (.error f, m') ∧
      m'.registers = m.registers) ∧
    (∃ f m', (State.runStmts [.print failingCall] [.restore 0] { m with scope := 1 }).run 20 =
      some (.fault f, m') ∧ m'.registers = m.registers) ∧
    (∃ d s', (Session.start 0).run 99 "fun f() \x7b \x7b x; \x7d \x7d f();".toUTF8.toList =
      some (.error d, s') ∧ s'.Idle) := by
  intro m
  refine ⟨?_, ?_, ?_, ?_, ?_⟩
  · have h : (m.evaluate 20 failingCall).map (·.1.isOk) = some false := by decide +kernel
    obtain ⟨⟨_ | _, m'⟩, hr, ho⟩ := Option.map_eq_some_iff.1 h
    · exact ⟨_, m', hr, (registers_restored 20 m m').1 _ _ hr⟩
    · cases ho
  · have h : (m.execute 20 (.block [.expression failingCall])).map (·.1.isOk) = some false := by
      decide +kernel
    obtain ⟨⟨_ | _, m'⟩, hr, ho⟩ := Option.map_eq_some_iff.1 h
    · exact ⟨_, m', hr, (registers_restored 20 m m').2.1 _ _ hr⟩
    · cases ho
  · have h : (m.call 20 (.builtin .len) [.nil] 1).map (·.1.isOk) = some false := by decide +kernel
    obtain ⟨⟨_ | _, m'⟩, hr, ho⟩ := Option.map_eq_some_iff.1 h
    · exact ⟨_, m', hr, (registers_restored 20 m m').2.2.1 _ _ _ _ hr⟩
    · cases ho
  · have h : ((State.runStmts [.print failingCall] [.restore 0] { m with scope := 1 }).run 20).map
        (fun r => r.1 matches .fault _) = some true := by decide +kernel
    obtain ⟨⟨_ | _ | _, m'⟩, hr, ho⟩ := Option.map_eq_some_iff.1 h
    · cases ho
    · cases ho
    · exact ⟨_, m', hr, (registers_restored 20 m m').2.2.2.1 _ 1 _ hr⟩
  · have h : ((Session.start 0).run 99 "fun f() \x7b \x7b x; \x7d \x7d f();".toUTF8.toList).map (·.1.isOk) =
        some false := by decide +kernel
    obtain ⟨⟨_ | _, s'⟩, hr, ho⟩ := Option.map_eq_some_iff.1 h
    · exact ⟨_, s', hr, (registers_restored 99 m m).2.2.2.2 0 _ _ _ _ .start hr⟩
    · cases ho

end TreeWalk
