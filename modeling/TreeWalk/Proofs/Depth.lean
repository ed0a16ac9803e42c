import TreeWalk.Proofs.History

/-!
# How deep calls nest

A step enters a call when it puts a `leave` frame on the stack, and leaves one when it takes such a
frame off. `State.activeAfter` follows the calls of a run in this way and looks at nothing else. The
machine keeps its own list of names and its own count of them; both agree with what was followed
(`State.Counted`), the count never exceeds `maxDepth`, and since the body of a function lies right
on the `leave` frame of its call (`Nested`), no more bodies are under way than calls.
-/

namespace TreeWalk

/-! ### Calls on the stack -/

def Frame.isLeave : Frame → Bool
  | .leave => true
  | _ => false

def Frame.isBody : Frame → Bool
  | .body _ => true
  | _ => false

/-- The calls that a stack has yet to leave. -/
def leaves (stack : List Frame) : Nat :=
  stack.countP Frame.isLeave

/-- The bodies of functions that wait on a stack for their end. -/
def bodies (stack : List Frame) : Nat :=
  stack.countP Frame.isBody

/-- The stack of a machine with these active calls. Every call has a `leave` frame of its own, and
the body of a function lies right on it, or on the instance that the call is to give. -/
inductive Nested : List Frame → List String → Prop
  | script : Nested [] []
  | frame {frame stack calls} (hleave : frame.isLeave = false) (hbody : frame.isBody = false)
      (h : Nested stack calls) : Nested (frame :: stack) calls
  | call {name stack calls} (h : Nested stack calls) : Nested (.leave :: stack) (name :: calls)
  | function {f name stack calls} (h : Nested stack calls) :
      Nested (.body f :: .leave :: stack) (name :: calls)
  | initializer {f target name stack calls} (h : Nested stack calls) :
      Nested (.body f :: .construct target :: .leave :: stack) (name :: calls)

namespace Nested

variable {frame : Frame} {stack : List Frame} {calls : List String}

theorem leaves_eq (h : Nested stack calls) : leaves stack = calls.length := by
  induction h with
  | script => rfl
  | frame hleave _ _ ih => simpa [leaves, List.countP_cons, hleave] using ih
  | call _ ih | function _ ih | initializer _ ih =>
    simpa [leaves, List.countP_cons, Frame.isLeave] using ih

theorem bodies_le (h : Nested stack calls) : bodies stack ≤ calls.length := by
  induction h with
  | script => exact Nat.le_refl _
  | frame _ hbody _ ih => simpa [bodies, List.countP_cons, hbody] using ih
  | call _ ih =>
    exact Nat.le_succ_of_le (by simpa [bodies, List.countP_cons, Frame.isBody] using ih)
  | function _ ih | initializer _ ih =>
    simpa [bodies, List.countP_cons, Frame.isBody] using ih

/-- A frame that leaves no call can be taken off. -/
theorem pop (h : Nested (frame :: stack) calls) (hleave : frame.isLeave = false) :
    Nested stack calls := by
  cases h with
  | frame _ _ h => exact h
  | call => cases hleave
  | function h => exact .call h
  | initializer h => exact .frame rfl rfl (.call h)

theorem pop_leave (h : Nested (.leave :: stack) calls) : Nested stack calls.tail := by
  cases h with
  | frame hleave => cases hleave
  | call h => exact h

end Nested

/-! ### What a step does to the calls -/

namespace State

/-- The state goes on where `stack` and `m` were, with the same calls active. -/
structure Keeps (stack : List Frame) (m : Machine) (st : State) : Prop where
  calls : st.machine.calls = m.calls
  depth : st.machine.depth = m.depth
  nested : Nested stack m.calls → Nested st.stack m.calls

variable {stack : List Frame} {m m' : Machine}

theorem keeps_mk {focus : Focus} (hcalls : m'.calls = m.calls) (hdepth : m'.depth = m.depth) :
    Keeps stack m ⟨focus, stack, m'⟩ :=
  ⟨hcalls, hdepth, fun h => h⟩

theorem keeps_push {focus : Focus} {frame : Frame} (hleave : frame.isLeave = false)
    (hbody : frame.isBody = false) (hcalls : m'.calls = m.calls) (hdepth : m'.depth = m.depth) :
    Keeps stack m ⟨focus, frame :: stack, m'⟩ :=
  ⟨hcalls, hdepth, fun h => .frame hleave hbody h⟩

theorem keeps_settle (outcome : Except Fault Value) (hcalls : m'.calls = m.calls)
    (hdepth : m'.depth = m.depth) : Keeps stack m (settle outcome stack m') := by
  cases outcome with
  | ok v => exact keeps_mk hcalls hdepth
  | error f => exact keeps_mk hcalls hdepth

theorem keeps_runStmts (ss : List Stmt) : Keeps stack m (runStmts ss stack m) := by
  cases ss with
  | nil => exact keeps_mk rfl rfl
  | cons x rest => exact keeps_push rfl rfl rfl rfl

theorem keeps_stepVariable (operator : Token) (size : Float) (name : Token) (fixity : Fixity) :
    Keeps stack m (stepVariable operator size name fixity stack m) := by
  unfold stepVariable
  split
  · exact keeps_mk rfl rfl
  · split
    · exact keeps_mk rfl rfl
    · split
      · exact keeps_mk rfl rfl
      · exact keeps_settle _ rfl rfl

theorem keeps_argumentsFrom (callee : Value) (paren : Token) (done : List Value)
    (todo : List Expr) : Keeps stack m (argumentsFrom callee paren done todo stack m) := by
  cases todo with
  | nil => exact keeps_mk rfl rfl
  | cons e todo => exact keeps_push rfl rfl rfl rfl

theorem keeps_elementsFrom (done : List Value) (todo : List Expr) :
    Keeps stack m (elementsFrom done todo stack m) := by
  cases todo with
  | nil => exact keeps_mk rfl rfl
  | cons e todo => exact keeps_push rfl rfl rfl rfl

theorem keeps_variablesFrom (bindings : List (Token × Option Expr)) (hcalls : m'.calls = m.calls)
    (hdepth : m'.depth = m.depth) : Keeps stack m (variablesFrom bindings stack m') := by
  induction bindings generalizing m' with
  | nil => exact keeps_mk hcalls hdepth
  | cons b rest ih =>
    obtain ⟨name, _ | value⟩ := b
    · exact ih hcalls hdepth
    · exact keeps_push rfl rfl hcalls hdepth

theorem keeps_evaluate (e : Expr) : Keeps stack m (evaluate e stack m) := by
  cases e with
  | literal | group | lambda => exact keeps_mk rfl rfl
  | unary operator operand fixity =>
    show Keeps stack m (unary operator operand fixity stack m)
    unfold unary
    split
    · exact keeps_stepVariable _ _ _ _
    · exact keeps_push rfl rfl rfl rfl
  | «variable» | this => exact keeps_settle _ rfl rfl
  | array bracket elements => exact keeps_elementsFrom [] elements
  | binary | logical | ternary | assign | call | index | get | set =>
    exact keeps_push rfl rfl rfl rfl

theorem keeps_execute (x : Stmt) : Keeps stack m (execute x stack m) := by
  cases x with
  | block body =>
    have h : Keeps (.restore m.scope :: stack) (m.enterScope m.scope) (runStmts body _ _) :=
      keeps_runStmts body
    exact ⟨h.calls, h.depth, fun hn => h.nested (.frame rfl rfl hn)⟩
  | var bindings => exact keeps_variablesFrom bindings rfl rfl
  | returning keyword value =>
    cases value with
    | none => exact keeps_mk rfl rfl
    | some value => exact keeps_push rfl rfl rfl rfl
  | function | classDecl | breaking | continuing => exact keeps_mk rfl rfl
  | expression | print | conditional | loop => exact keeps_push rfl rfl rfl rfl

theorem keeps_property (r : Nat) (name : Token) : Keeps stack m (property r name stack m) := by
  unfold property
  split
  · exact keeps_mk rfl rfl
  · split
    · exact keeps_mk rfl rfl
    · exact keeps_mk rfl rfl

theorem keeps_nextRound (loop : Loop) : Keeps stack m (nextRound loop stack m) := by
  unfold nextRound
  split
  · exact keeps_push rfl rfl rfl rfl
  · exact keeps_push rfl rfl rfl rfl

theorem keeps_giveValue {frame : Frame} (v : Value) (hleave : frame.isLeave = false) :
    Keeps stack m (giveValue v frame stack m) := by
  cases frame with
  | leave => cases hleave
  | unary | binaryRight | position => exact keeps_settle _ rfl rfl
  | binaryLeft | collection | increment => exact keeps_push rfl rfl rfl rfl
  | logical operator right =>
    simp only [giveValue]
    split
    · exact keeps_mk rfl rfl
    · exact keeps_mk rfl rfl
  | assign reference name =>
    simp only [giveValue]
    split
    · exact keeps_mk rfl rfl
    · exact keeps_mk rfl rfl
  | callee paren arguments =>
    simp only [giveValue]
    split
    · exact keeps_argumentsFrom _ _ _ _
    · exact keeps_mk rfl rfl
  | arguments => exact keeps_argumentsFrom _ _ _ _
  | elements => exact keeps_elementsFrom _ _
  | get name =>
    cases v with
    | instance_ r => exact keeps_property r name
    | _ => exact keeps_mk rfl rfl
  | setObject name value =>
    cases v with
    | instance_ r => exact keeps_push rfl rfl rfl rfl
    | _ => exact keeps_mk rfl rfl
  | var name rest => exact keeps_variablesFrom rest rfl rfl
  | conditional whenTrue whenFalse =>
    simp only [giveValue]
    split
    · exact keeps_mk rfl rfl
    · cases whenFalse with
      | none => exact keeps_mk rfl rfl
      | some whenFalse => exact keeps_mk rfl rfl
  | condition loop =>
    simp only [giveValue]
    split
    · exact keeps_push rfl rfl rfl rfl
    · exact keeps_mk rfl rfl
  | _ => exact keeps_mk rfl rfl

theorem keeps_giveSignal {frame : Frame} (x : Signal) (hleave : frame.isLeave = false) :
    Keeps stack m (giveSignal x frame stack m) := by
  cases frame with
  | leave => cases hleave
  | sequence rest =>
    cases x with
    | normal => exact keeps_runStmts rest
    | _ => exact keeps_mk rfl rfl
  | round loop =>
    cases x with
    | normal | nextRound => exact keeps_nextRound loop
    | _ => exact keeps_mk rfl rfl
  | body f => exact keeps_settle _ rfl rfl
  | _ => exact keeps_mk rfl rfl

theorem keeps_giveFault {frame : Frame} (f : Fault) (hleave : frame.isLeave = false) :
    Keeps stack m (giveFault f frame stack m) := by
  cases frame with
  | leave => cases hleave
  | _ => exact keeps_mk rfl rfl

/-! ### Entering and leaving -/

/-- The name of what a state is about to call. -/
def calledName (st : State) : String :=
  match st.focus with
  | .invoke callee _ _ => calleeName st.machine.heap callee
  | _ => ""

/-- The machine's calls, their number and the stack belong together, and there are not too many. -/
structure Counted (st : State) : Prop where
  nested : Nested st.stack st.machine.calls
  depth : st.machine.depth = st.machine.calls.length
  bound : st.machine.depth ≤ maxDepth

/-- The active calls stay, or one is entered, or the innermost is left. -/
inductive StepsCalls (st : State) : Prop
  | stay (h : st.step.machine.calls = st.machine.calls)
  | enter (h : st.step.machine.calls = st.calledName :: st.machine.calls)
  | leave (h : st.step.machine.calls = st.machine.calls.tail)

theorem Keeps.counted {st : State} (h : Keeps stack st.machine st.step) (hst : st.Counted)
    (hstack : Nested stack st.machine.calls) : st.step.Counted ∧ StepsCalls st := by
  refine ⟨⟨?_, ?_, ?_⟩, .stay h.calls⟩
  · rw [h.calls]
    exact h.nested hstack
  · rw [h.depth, h.calls]
    exact hst.depth
  · rw [h.depth]
    exact hst.bound

theorem nested_enterBody (f : Function) (arguments : List Value)
    (h : Nested (.body f :: stack) m.calls) :
    (enterBody f arguments stack m).machine.calls = m.calls ∧
      (enterBody f arguments stack m).machine.depth = m.depth ∧
      Nested (enterBody f arguments stack m).stack m.calls := by
  have hbody : Nested (.restore m.scope :: .body f :: stack) m.calls := .frame rfl rfl h
  cases hb : f.decl.body with
  | nil => simpa [enterBody, runStmts, hb] using ⟨rfl, rfl, hbody⟩
  | cons x rest => simpa [enterBody, runStmts, hb] using ⟨rfl, rfl, .frame rfl rfl hbody⟩

/-- On the `leave` frame of a call lies the body of what is called, if it has one. -/
theorem nested_enterCallee (callee : Value) (arguments : List Value) (line : Nat) {name : String}
    {calls : List String} (hcalls : m.calls = name :: calls) (h : Nested stack calls) :
    (enterCallee callee arguments line (.leave :: stack) m).machine.calls = m.calls ∧
      (enterCallee callee arguments line (.leave :: stack) m).machine.depth = m.depth ∧
      Nested (enterCallee callee arguments line (.leave :: stack) m).stack m.calls := by
  have hleave : Nested (.leave :: stack) m.calls := hcalls ▸ .call h
  cases callee with
  | builtin b =>
    have hkeeps : Keeps (.leave :: stack) m
        (enterCallee (.builtin b) arguments line (.leave :: stack) m) :=
      keeps_settle _ rfl rfl
    exact ⟨hkeeps.calls, hkeeps.depth, hkeeps.nested hleave⟩
  | function r => exact nested_enterBody _ _ (hcalls ▸ .function h)
  | class_ r =>
    simp only [enterCallee, instantiate]
    split
    · exact ⟨rfl, rfl, hleave⟩
    · exact nested_enterBody (m := { m with heap := _ }) _ _ (hcalls ▸ .initializer h)
  | _ => exact ⟨rfl, rfl, hleave⟩

section

variable {callee : Value} {arguments : List Value} {line : Nat} {arity : Arity}

/-- A call with as many arguments as it takes is refused when too many are active. -/
theorem invoke_refused (harity : arity? m.heap callee = some arity)
    (haccepts : arity.accepts arguments.length) (hdepth : maxDepth ≤ m.depth) :
    invoke callee arguments line stack m =
      ⟨.fault ((Fault.onLine line .stackOverflow).withTrace m.calls), stack, m⟩ := by
  simp only [invoke, harity, haccepts, hdepth, Bool.not_true, Bool.false_eq_true, if_false, if_true]

theorem invoke_entered (harity : arity? m.heap callee = some arity)
    (haccepts : arity.accepts arguments.length) (hdepth : m.depth < maxDepth) :
    invoke callee arguments line stack m =
      enterCallee callee arguments line (.leave :: stack)
        (m.enterCall (calleeName m.heap callee)) := by
  have hle : ¬maxDepth ≤ m.depth := Nat.not_le_of_lt hdepth
  simp only [invoke, harity, haccepts, hle, Bool.not_true, Bool.false_eq_true, if_false]

/-- A call that is not refused has its `leave` frame on the stack. -/
theorem Counted.enter (h : Counted ⟨.invoke callee arguments line, stack, m⟩)
    (harity : arity? m.heap callee = some arity) (haccepts : arity.accepts arguments.length)
    (hdepth : m.depth < maxDepth) :
    (invoke callee arguments line stack m).Counted ∧
      (invoke callee arguments line stack m).machine.calls =
        calleeName m.heap callee :: m.calls := by
  rw [invoke_entered harity haccepts hdepth]
  obtain ⟨hcalls, hnew, hnested⟩ := nested_enterCallee callee arguments line
    (m := m.enterCall (calleeName m.heap callee)) rfl h.nested
  refine ⟨⟨?_, ?_, ?_⟩, hcalls⟩
  · rw [hcalls]
    exact hnested
  · rw [hnew, hcalls]
    exact congrArg (· + 1) h.depth
  · rw [hnew]
    exact hdepth

theorem counted_invoke (h : Counted ⟨.invoke callee arguments line, stack, m⟩) :
    (step ⟨.invoke callee arguments line, stack, m⟩).Counted ∧
      StepsCalls ⟨.invoke callee arguments line, stack, m⟩ := by
  have hrefused (f : Fault)
      (hstep : step ⟨.invoke callee arguments line, stack, m⟩ = ⟨.fault f, stack, m⟩) :
      (step ⟨.invoke callee arguments line, stack, m⟩).Counted ∧
        StepsCalls ⟨.invoke callee arguments line, stack, m⟩ := by
    have hkeeps : Keeps stack m (step ⟨.invoke callee arguments line, stack, m⟩) := by
      rw [hstep]
      exact keeps_mk rfl rfl
    exact hkeeps.counted h h.nested
  cases harity : arity? m.heap callee with
  | none =>
    refine hrefused (.onLine line (.notCallable callee.type)) ?_
    simp only [step, invoke, harity]
  | some arity =>
    cases haccepts : arity.accepts arguments.length with
    | false =>
      refine hrefused (.onLine line (.wrongArgumentCount arity arguments.length)) ?_
      simp [step, invoke, harity, haccepts]
    | true =>
      by_cases hdepth : maxDepth ≤ m.depth
      · exact hrefused _ (invoke_refused harity haccepts hdepth)
      · obtain ⟨hcounted, hcalls⟩ := h.enter harity haccepts (Nat.lt_of_not_le hdepth)
        exact ⟨hcounted, .enter hcalls⟩

end

/-- Whatever reaches a `leave` frame leaves the innermost call. -/
theorem counted_leave {focus focus' : Focus} (h : Counted ⟨focus, .leave :: stack, m⟩)
    (hstep : step ⟨focus, .leave :: stack, m⟩ = ⟨focus', stack, m.leaveCall⟩) :
    (step ⟨focus, .leave :: stack, m⟩).Counted ∧ StepsCalls ⟨focus, .leave :: stack, m⟩ := by
  have hdepth : m.depth = m.calls.length := h.depth
  have hbound : m.depth ≤ maxDepth := h.bound
  refine ⟨?_, .leave (by rw [hstep]; rfl)⟩
  rw [hstep]
  refine ⟨h.nested.pop_leave, ?_, Nat.le_trans (Nat.sub_le _ _) hbound⟩
  show m.depth - 1 = m.calls.tail.length
  rw [hdepth, List.length_tail]

theorem counted_step {st : State} (h : st.Counted) : st.step.Counted ∧ StepsCalls st := by
  obtain ⟨focus, stack, m⟩ := st
  cases focus with
  | evaluate e => exact (keeps_evaluate e).counted h h.nested
  | execute x => exact (keeps_execute x).counted h h.nested
  | invoke callee arguments line => exact counted_invoke h
  | value v =>
    cases stack with
    | nil => exact ⟨h, .stay rfl⟩
    | cons frame stack =>
      cases hleave : frame.isLeave with
      | true =>
        cases frame <;> cases hleave
        exact counted_leave h rfl
      | false => exact (keeps_giveValue v hleave).counted h (h.nested.pop hleave)
  | signal x =>
    cases stack with
    | nil => exact ⟨h, .stay rfl⟩
    | cons frame stack =>
      cases hleave : frame.isLeave with
      | true =>
        cases frame <;> cases hleave
        exact counted_leave h rfl
      | false => exact (keeps_giveSignal x hleave).counted h (h.nested.pop hleave)
  | fault f =>
    cases stack with
    | nil => exact ⟨h, .stay rfl⟩
    | cons frame stack =>
      cases hleave : frame.isLeave with
      | true =>
        cases frame <;> cases hleave
        exact counted_leave h rfl
      | false => exact (keeps_giveFault f hleave).counted h (h.nested.pop hleave)

/-! ### Runs -/

/-- The calls that are active after the next step: one more if the step puts a `leave` frame on the
stack, and one less if it takes one off. -/
def active (st : State) (calls : List String) : List String :=
  if leaves st.stack < leaves st.step.stack then st.calledName :: calls
  else if leaves st.step.stack < leaves st.stack then calls.tail
  else calls

/-- The calls entered and not yet left after some steps, innermost first, if `calls` are active
before them. -/
def activeAfter : (count : Nat) → State → (calls : List String) → List String
  | 0, _, calls => calls
  | count + 1, st, calls => activeAfter count st.step (st.active calls)

theorem Counted.active {st : State} (h : st.Counted) :
    st.step.machine.calls = st.active st.machine.calls := by
  obtain ⟨hstep, hcalls⟩ := counted_step h
  have hbefore := h.nested.leaves_eq
  have hafter := hstep.nested.leaves_eq
  unfold State.active
  rw [hbefore, hafter]
  cases hcalls with
  | stay heq => simp [heq]
  | enter heq => simp [heq]
  | leave heq =>
    cases hc : st.machine.calls with
    | nil => simp [heq, hc]
    | cons name calls =>
      have hlt : ¬calls.length + 1 < calls.length := by omega
      simp [heq, hc, hlt]

theorem Counted.steps {st : State} (h : st.Counted) (count : Nat) :
    (st.steps count).Counted ∧
      (st.steps count).machine.calls = st.activeAfter count st.machine.calls := by
  induction count generalizing st with
  | zero => exact ⟨h, rfl⟩
  | succ count ih =>
    obtain ⟨hcounted, hcalls⟩ := ih (counted_step h).1
    refine ⟨hcounted, ?_⟩
    rw [State.steps, hcalls, State.activeAfter, h.active]

/-- A call with as many arguments as it takes is refused exactly when `maxDepth` calls are active.
The refusal leaves the machine as it is. -/
theorem refused_iff {callee : Value} {arguments : List Value} {line : Nat} {arity : Arity}
    (h : Counted ⟨.invoke callee arguments line, stack, m⟩)
    (harity : arity? m.heap callee = some arity) (haccepts : arity.accepts arguments.length) :
    (∃ trace, step ⟨.invoke callee arguments line, stack, m⟩ =
      ⟨.fault (.runtime .stackOverflow line trace), stack, m⟩) ↔ m.calls.length = maxDepth := by
  have hdepth : m.depth = m.calls.length := h.depth
  have hbound : m.depth ≤ maxDepth := h.bound
  constructor
  · rintro ⟨trace, hstep⟩
    refine (Nat.lt_or_ge m.calls.length maxDepth).elim (fun hlt => ?_) (by omega)
    -- a call that is entered has one name more
    obtain ⟨-, hcalls⟩ := h.enter harity haccepts (hdepth ▸ hlt)
    have hsame : (invoke callee arguments line stack m).machine.calls = m.calls :=
      congrArg (fun st => st.machine.calls) hstep
    rw [hcalls] at hsame
    exact absurd (congrArg List.length hsame) (by simp)
  · intro hlength
    refine ⟨if m.calls = [] then [] else renderTrace m.calls ++ [scriptName], ?_⟩
    show invoke callee arguments line stack m = _
    rw [invoke_refused harity haccepts (by omega)]
    cases m.calls <;> rfl

/-- Outside of all calls nothing is counted. -/
theorem counted_idle (focus : Focus) (hcalls : m.calls = []) (hdepth : m.depth = 0) :
    Counted ⟨focus, [], m⟩ := by
  refine ⟨?_, ?_, ?_⟩
  · show Nested [] m.calls
    rw [hcalls]
    exact .script
  · show m.depth = m.calls.length
    rw [hdepth, hcalls]
    rfl
  · show m.depth ≤ maxDepth
    rw [hdepth]
    exact Nat.zero_le _

end State

/-! ### Sessions -/

/-- A statement of a unit begins: units of source lead to a session, the unit is accepted there, and
its statements before this one have run. -/
inductive Session.Begins (time : Float) : State → Prop
  | mk {source : List UInt8} {s s' : Session} {before after : List Stmt} {x : Stmt} {limit : Nat}
      {values : List (Option Value)} {m : Machine} (hs : Reachable time s)
      (haccept : s.accept? source = some (before ++ x :: after, s'))
      (hbefore : s'.machine.interpret limit before = some (.ok values, m)) :
      Begins time (x.begins m)

theorem Session.Idle.accept {s s' : Session} {source : List UInt8} {program : List Stmt}
    (h : s.Idle) (ha : s.accept? source = some (program, s')) : s'.Idle := by
  have hm := machine_parse source s
  unfold accept? at ha
  cases hp : s.parse source with
  | mk outcome s₁ =>
    rw [hp] at ha hm
    have h₁ : s₁.Idle := h.of_eq (by rw [hm]) (by rw [hm]) (by rw [hm]) (by rw [hm])
    cases outcome with
    | error d => cases ha
    | ok p =>
      have hres := h₁.resolve p
      dsimp only at ha
      split at ha
      · cases ha
      · next heq =>
        cases ha
        rwa [heq] at hres

theorem Session.Begins.counted {time : Float} {st : State} (h : Begins time st) :
    st.Counted ∧ st.machine.calls = [] := by
  cases h with
  | @mk source s s' before after x limit values m hs haccept hbefore =>
    have hidle := hs.idle.accept haccept
    have hregisters := Machine.registers_of_interpret hbefore
    have hcalls : m.calls = [] := (congrArg Registers.calls hregisters).trans hidle.calls
    have hdepth : m.depth = 0 := (congrArg Registers.depth hregisters).trans hidle.depth
    refine ⟨?_, by rw [x.machine_begins, hcalls]⟩
    cases x <;> exact State.counted_idle _ hcalls hdepth

/-- At every moment of a session the machine's list of names is that of the calls entered and not
yet left, innermost first; its count is the length of the list and at most 8192; no more bodies of
functions are under way than calls; and a call with as many arguments as it takes is refused, with
nothing of it done, exactly when 8192 calls are active. -/
theorem calls_bounded {time : Float} {st : State} (h : Session.Begins time st) (count : Nat) :
    (st.steps count).machine.depth = (st.steps count).machine.calls.length ∧
    (st.steps count).machine.calls = st.activeAfter count [] ∧
    (st.steps count).machine.depth ≤ 8192 ∧
    bodies (st.steps count).stack ≤ (st.steps count).machine.depth ∧
    RunCause.stackOverflow.message = "Stack overflow: more than 8192 nested calls." ∧
    ∀ callee arguments line stack m arity,
      st.steps count = ⟨.invoke callee arguments line, stack, m⟩ →
      State.arity? m.heap callee = some arity → arity.accepts arguments.length →
      ((∃ trace, (st.steps count).step =
        ⟨.fault (.runtime .stackOverflow line trace), stack, m⟩) ↔ m.calls.length = 8192) := by
  obtain ⟨hbegins, hnone⟩ := h.counted
  obtain ⟨hcounted, hcalls⟩ := hbegins.steps count
  refine ⟨hcounted.depth, ?_, hcounted.bound, ?_, by decide +kernel, ?_⟩
  · rw [hcalls, hnone]
  · rw [hcounted.depth]
    exact hcounted.nested.bodies_le
  · intro callee arguments line stack m arity hst harity haccepts
    rw [hst] at hcounted ⊢
    exact State.refused_iff hcounted harity haccepts

/-- Of a state that calls something: the active calls, the bodies under way, how many arguments what
is called takes and how many there are. -/
def State.callAhead? : State → Option (List String × Nat × Option Arity × Nat)
  | ⟨.invoke callee arguments _, stack, m⟩ =>
    some (m.calls, bodies stack, arity? m.heap callee, arguments.length)
  | _ => none

/-- A function that makes an instance, whose initializer calls a function. -/
def nestedUnit : List UInt8 :=
  "fun g(a) \x7b\x7d class A \x7b init() \x7b g(1); \x7d \x7d fun f() \x7b return A(); \x7d"
    |>.toUTF8.toList

/-- A later unit calls `f`. When the initializer calls `g`, the calls of `A` and of `f` are active,
each with a body of its own, and the call is not refused. -/
theorem calls_bounded_in_initializer :
    ∃ st callee arguments line stack m, Session.Begins 0 st ∧
      st.steps 15 = ⟨.invoke callee arguments line, stack, m⟩ ∧
      m.calls = ["A", "f"] ∧ st.activeAfter 15 [] = ["A", "f"] ∧ bodies stack = 2 ∧
      ¬∃ trace, (st.steps 15).step = ⟨.fault (.runtime .stackOverflow line trace), stack, m⟩ := by
  have h : (((Session.start 0).run 99 nestedUnit).bind fun r =>
      (r.2.accept? "f();".toUTF8.toList).bind fun a =>
      a.1.head?.bind fun x => ((x.begins a.2.machine).steps 15).callAhead?) =
      some (["A", "f"], 2, some (.exactly 1), 1) := by
    decide +kernel
  obtain ⟨⟨result, s⟩, hrun, h⟩ := Option.bind_eq_some_iff.1 h
  obtain ⟨⟨program, s'⟩, haccept, h⟩ := Option.bind_eq_some_iff.1 h
  obtain ⟨x, hx, h⟩ := Option.bind_eq_some_iff.1 h
  obtain ⟨after, rfl⟩ := List.head?_eq_some_iff.1 hx
  have hbegins : Session.Begins 0 (x.begins s'.machine) :=
    have hnone : s'.machine.interpret 0 [] = some (.ok [], s'.machine) := rfl
    .mk (.run .start hrun) haccept hnone
  obtain ⟨-, hactive, -, -, -, hrefused⟩ := calls_bounded hbegins 15
  unfold State.callAhead? at h
  split at h
  · next callee arguments line stack m hst =>
    obtain ⟨hcalls, hbodies, harity, hlength⟩ : m.calls = ["A", "f"] ∧ bodies stack = 2 ∧
        State.arity? m.heap callee = some (.exactly 1) ∧ arguments.length = 1 := by
      simpa using h
    refine ⟨_, callee, arguments, line, stack, m, hbegins, hst, hcalls, ?_, hbodies, ?_⟩
    · rw [← hactive, hst]
      exact hcalls
    · rw [hrefused _ _ _ _ _ _ hst harity (by rw [hlength]; rfl), hcalls]
      decide
  · cases h

end TreeWalk
