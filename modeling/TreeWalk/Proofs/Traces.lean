import TreeWalk.Proofs.Raising

/-!
# Traces

A call that ends with a runtime error names the calls that were active when the error was raised:
itself, those that were entered inside of it and those around it. A call that is not entered names
the calls around it if it is one too many, and nothing if the number of arguments is wrong
(`Machine.TracesCalls`).
-/

namespace TreeWalk

namespace State

variable {m m' : Machine} {f : Fault} {ending : Ending} {limit : Nat}

/-! ### Calls -/

section

variable {callee : Value} {arguments : List Value} {line : Nat} {arity : Arity}
  {below : List Frame}

/-- Behind the frame of a call is the end of the call, with the fault if there was one. -/
theorem fault_of_leave (h : State.run limit ⟨ending.focus, [.leave], m⟩ = some (.fault f, m')) :
    ∃ f₁, ending = .fault f₁ ∧ f = f₁.withTrace m.calls := by
  cases limit with
  | zero => cases ending <;> cases h
  | succ limit =>
    cases limit with
    | zero => cases ending <;> cases h
    | succ limit =>
      cases ending with
      | fault f₁ =>
        cases h
        exact ⟨f₁, rfl, rfl⟩
      | value v => cases h
      | signal x => cases h

/-- A call that has just been entered, without its own frame. -/
def entered (callee : Value) (arguments : List Value) (line : Nat) (m : Machine) : State :=
  enterCallee callee arguments line [] (m.enterCall (calleeName m.heap callee))

theorem fresh_entered : (entered callee arguments line m).Fresh :=
  fresh_enterCallee callee arguments line

theorem calls_of_entered (h : (entered callee arguments line m).run limit = some (ending, m')) :
    m'.calls = calleeName m.heap callee :: m.calls := by
  have hunwound := unwound_enterCallee [] (m.enterCall (calleeName m.heap callee)) callee arguments
    line
  exact congrArg Registers.calls ((registers_of_run h).trans hunwound)

section

variable (harity : arity? m.heap callee = some arity) (haccepts : arity.accepts arguments.length)
  (hdepth : m.depth < maxDepth)

include harity haccepts hdepth

theorem step_invoke (stack : List Frame) : step ⟨.invoke callee arguments line, stack, m⟩ =
    (entered callee arguments line m).onTop (.leave :: stack) :=
  (invoke_entered harity haccepts hdepth).trans (enterCallee_onTop [] callee arguments line)

theorem above_entered (h : Counted ⟨.invoke callee arguments line, below, m⟩) :
    Above (.leave :: below) (calleeName m.heap callee :: m.calls) (entered callee arguments line m) ∧
      (entered callee arguments line m).machine.calls = calleeName m.heap callee :: m.calls := by
  have hstep : invoke callee arguments line below m =
      (entered callee arguments line m).onTop (.leave :: below) :=
    step_invoke harity haccepts hdepth below
  obtain ⟨hcounted, hcalls⟩ := h.enter harity haccepts hdepth
  rw [hstep] at hcounted hcalls
  generalize entered callee arguments line m = u at *
  obtain hcalls : u.machine.calls = calleeName m.heap callee :: m.calls := hcalls
  have hnested : leaves (u.stack ++ .leave :: below) = u.machine.calls.length :=
    hcounted.nested.leaves_eq
  have hbelow : leaves below = m.calls.length := h.nested.leaves_eq
  have hleave : leaves (.leave :: below) = leaves below + 1 := by
    simp [leaves, List.countP_cons, Frame.isLeave]
  rw [leaves_append, hleave, hcalls, List.length_cons] at hnested
  have hnone : leaves u.stack = 0 := by omega
  exact ⟨⟨hcounted, [], hcalls, hnone.symm⟩, hcalls⟩

theorem active_invoke : active ⟨.invoke callee arguments line, [], m⟩ m.calls =
    calleeName m.heap callee :: m.calls := by
  have hmore : leaves [] < leaves ((entered callee arguments line m).stack ++ [.leave]) := by
    rw [leaves_append]
    exact Nat.lt_add_left _ (Nat.zero_lt_succ 0)
  unfold active
  rw [step_invoke harity haccepts hdepth]
  exact if_pos hmore

/-- A fault at the end of a call that was entered names all calls that were active when it was
raised. -/
theorem fault_of_entered (h : Counted ⟨.invoke callee arguments line, below, m⟩)
    (hrun : State.run limit ⟨.invoke callee arguments line, [], m⟩ = some (.fault f, m')) :
    ∃ count f₁ inner, Raises ⟨.invoke callee arguments line, [], m⟩ count f₁ ∧
      activeAfter count ⟨.invoke callee arguments line, [], m⟩ m.calls =
        inner ++ calleeName m.heap callee :: m.calls ∧
      f₁.Fresh (inner ++ calleeName m.heap callee :: m.calls) ∧
      f = f₁.withTrace (inner ++ calleeName m.heap callee :: m.calls) := by
  obtain ⟨habove, hcalls⟩ := above_entered harity haccepts hdepth h
  have hstep : step ⟨.invoke callee arguments line, [], m⟩ = _ :=
    step_invoke harity haccepts hdepth []
  cases limit with
  | zero => cases hrun
  | succ limit =>
    change State.run limit (step ⟨.invoke callee arguments line, [], m⟩) = _ at hrun
    rw [hstep] at hrun
    obtain ⟨limit₁, limit₂, ending, m₁, hinside, houtside⟩ := run_onTop hrun
    obtain ⟨f₀, rfl, hf⟩ := fault_of_leave houtside
    obtain ⟨count, f₁, inner, hraises, hrunning, hactive, hfresh, hf₀⟩ :=
      habove.fault_of_run fresh_entered hinside
    refine ⟨count + 1, f₁, inner, ?_, ?_, hfresh, ?_⟩
    · have hbegun := hraises.onTop hrunning [.leave]
      rw [← hstep] at hbegun
      exact hbegun.succ fun f' hf' => by cases hf'
    · rw [activeAfter, active_invoke harity haccepts hdepth, hstep, activeAfter_onTop hrunning]
      rw [← hcalls, hactive, hcalls]
    · -- The call's own frame gives a trace to what has none by then.
      rw [hf, calls_of_entered hinside, hf₀]
      by_cases hinner : inner = []
      · rw [if_pos hinner, hinner]
        rfl
      · rw [if_neg hinner]
        exact f₁.traced_withTrace (by simp) _

end

end

end State

/-! ### Programs -/

namespace Machine

variable {limit : Nat} {m m' : Machine} {f : Fault}

/-- The statement of a program that is at fault. -/
theorem interpret_error {program : List Stmt} (h : m.interpret limit program = some (.error f, m')) :
    ∃ before x after values m₁, program = before ++ x :: after ∧
      m.interpret limit before = some (.ok values, m₁) ∧
      m₁.interpretOne limit x = some (.error f, m') := by
  induction program generalizing m with
  | nil => cases h
  | cons x rest ih =>
    rw [interpret] at h
    cases hone : m.interpretOne limit x with
    | none =>
      rw [hone] at h
      cases h
    | some r =>
      rw [hone] at h
      obtain ⟨f₁ | v, m₁⟩ := r
      · cases h
        exact ⟨[], x, rest, [], m, rfl, rfl, hone⟩
      · dsimp only at h
        cases hrest : m₁.interpret limit rest with
        | none =>
          rw [hrest] at h
          cases h
        | some r =>
          rw [hrest] at h
          obtain ⟨f₁ | values, m₂⟩ := r
          · cases h
            obtain ⟨before, y, after, values, m₃, rfl, hbefore, hy⟩ := ih hrest
            refine ⟨x :: before, y, after, v :: values, m₃, rfl, ?_, hy⟩
            rw [interpret, hone]
            dsimp only
            rw [hbefore]
            rfl
          · cases h

/-- A statement is at fault if its run ends with a fault, or with a signal that leaves the program. -/
theorem interpretOne_error {x : Stmt} (h : m.interpretOne limit x = some (.error f, m')) :
    (x.begins m).run limit = some (.fault f, m') ∨
      ∃ y, m.execute limit x = some (.ok y, m') ∧ signalFault? x y = some f := by
  unfold interpretOne at h
  split at h
  · next e =>
    obtain ⟨⟨outcome, m₁⟩, he, heq⟩ := Option.map_eq_some_iff.1 h
    rcases outcome with f₁ | v
    · cases heq
      exact .inl (run_of_evaluate he)
    · cases heq
  · next hx =>
    cases he : m.execute limit x with
    | none =>
      rw [he] at h
      cases h
    | some r =>
      rw [he] at h
      obtain ⟨f₁ | y, m₁⟩ := r
      · cases h
        rw [x.begins_of_ne hx]
        exact .inl (run_of_execute he)
      · dsimp only at h
        split at h
        · next f₁ hy =>
          cases h
          exact .inr ⟨y, rfl, hy⟩
        · cases h

/-- No fault of a stray signal names calls. -/
theorem trace_of_signalFault? {x : Stmt} {y : Signal} (h : signalFault? x y = some f) :
    f.trace = [] := by
  cases y <;> cases h <;> rfl

/-- The traces of runtime errors are those of the calls that were active when they were raised. -/
structure TracesCalls (m : Machine) : Prop where
  /-- A call with a wrong number of arguments names nothing. -/
  miscounted : ∀ limit callee arguments line arity cause l trace m',
    State.arity? m.heap callee = some arity → arity.accepts arguments.length = false →
    m.call limit callee arguments line = some (.error (.runtime cause l trace), m') → trace = []
  /-- A call that is one too many names the calls before it. -/
  refused : ∀ limit callee arguments line arity cause l trace m',
    State.arity? m.heap callee = some arity → arity.accepts arguments.length = true →
    m.calls.length = 8192 →
    m.call limit callee arguments line = some (.error (.runtime cause l trace), m') →
    cause = .stackOverflow ∧ trace = renderTrace m.calls ++ ["<script>"]
  /-- Any other call is itself one of the calls that are named, with those inside and around it. -/
  entered : ∀ limit callee arguments line arity cause l trace m',
    State.arity? m.heap callee = some arity → arity.accepts arguments.length = true →
    m.calls.length ≠ 8192 →
    m.call limit callee arguments line = some (.error (.runtime cause l trace), m') →
    ∃ inner calls, calls = inner ++ State.calleeName m.heap callee :: m.calls ∧
      State.RaisesIn ⟨.invoke callee arguments line, [], m⟩ m.calls calls cause l ∧
      trace = renderTrace calls ++ ["<script>"]
  /-- A trace stays, whatever calls are left. -/
  kept : ∀ cause l trace stack count, trace ≠ [] →
    (State.steps count ⟨.fault (.runtime cause l trace), stack, m⟩).focus =
      .fault (.runtime cause l trace)
  /-- The error of a program names the calls that were active, and nothing outside of calls. -/
  program : m.calls = [] → ∀ limit program cause l trace m',
    m.interpret limit program = some (.error (.runtime cause l trace), m') →
    ∃ before x after values m₁, program = before ++ x :: after ∧
      m.interpret limit before = some (.ok values, m₁) ∧
      ((trace = [] ∧ ∃ y, m₁.execute limit x = some (.ok y, m') ∧
          signalFault? x y = some (.runtime cause l trace)) ∨
        ∃ calls, (x.begins m₁).RaisesIn [] calls cause l ∧
          trace = if calls = [] then [] else renderTrace calls ++ ["<script>"])
  /-- Sixteen calls are named, and the others are counted. -/
  rendered : ∀ names : List String, renderTrace names = names.take 16 ++
    if 16 < names.length then ["... " ++ natText (names.length - 16) ++ " more"] else []

/-! ### The fields one by one -/

section

variable {callee : Value} {arguments : List Value} {line l : Nat} {arity : Arity} {cause : RunCause}
  {trace : List String}

/-- A call that is not entered ends at once. -/
theorem fault_of_call {f₁ : Fault}
    (hstep : State.invoke callee arguments line [] m = ⟨.fault f₁, [], m⟩)
    (h : m.call limit callee arguments line = some (.error f, m')) : f = f₁ := by
  have hrun := run_of_call h
  cases limit with
  | zero => cases hrun
  | succ limit =>
    change State.run limit (State.invoke callee arguments line [] m) = _ at hrun
    rw [hstep] at hrun
    cases limit with
    | zero => cases hrun
    | succ limit =>
      cases hrun
      rfl

theorem trace_of_miscounted (harity : State.arity? m.heap callee = some arity)
    (haccepts : arity.accepts arguments.length = false)
    (h : m.call limit callee arguments line = some (.error (.runtime cause l trace), m')) :
    trace = [] := by
  have hstep : State.invoke callee arguments line [] m =
      ⟨.fault (.onLine line (.wrongArgumentCount arity arguments.length)), [], m⟩ := by
    simp [State.invoke, harity, haccepts]
  cases fault_of_call hstep h
  rfl

theorem trace_of_refused {below : List Frame}
    (hm : State.Counted ⟨.invoke callee arguments line, below, m⟩)
    (harity : State.arity? m.heap callee = some arity) (haccepts : arity.accepts arguments.length)
    (hfull : m.calls.length = 8192)
    (h : m.call limit callee arguments line = some (.error (.runtime cause l trace), m')) :
    cause = .stackOverflow ∧ trace = renderTrace m.calls ++ ["<script>"] := by
  have hdepth : m.depth = m.calls.length := hm.depth
  have hstep : State.invoke callee arguments line [] m = _ :=
    State.invoke_refused harity haccepts (Nat.le_of_eq (hfull.symm.trans hdepth.symm))
  rw [Fault.onLine, Fault.withTrace_of_nil] at hstep
  cases fault_of_call hstep h
  refine ⟨rfl, callTrace_of_ne_nil fun hnil => ?_⟩
  rw [hnil] at hfull
  cases hfull

theorem trace_of_entered {below : List Frame}
    (hm : State.Counted ⟨.invoke callee arguments line, below, m⟩)
    (harity : State.arity? m.heap callee = some arity) (haccepts : arity.accepts arguments.length)
    (hfull : m.calls.length ≠ 8192)
    (h : m.call limit callee arguments line = some (.error (.runtime cause l trace), m')) :
    ∃ inner calls, calls = inner ++ State.calleeName m.heap callee :: m.calls ∧
      State.RaisesIn ⟨.invoke callee arguments line, [], m⟩ m.calls calls cause l ∧
      trace = renderTrace calls ++ ["<script>"] := by
  have hdepth : m.depth = m.calls.length := hm.depth
  have hbound : m.depth ≤ maxDepth := hm.bound
  have hlt : m.depth < maxDepth :=
    Nat.lt_of_le_of_ne hbound fun heq => hfull (hdepth.symm.trans heq)
  obtain ⟨count, f₁, inner, hraises, hactive, hfresh, hf⟩ :=
    State.fault_of_entered harity haccepts hlt hm (run_of_call h)
  obtain ⟨t, rfl⟩ := Fault.exists_of_withTrace hf.symm
  rw [hfresh.withTrace] at hf
  cases hf
  exact ⟨inner, _, rfl, ⟨count, t, hraises, hactive⟩, callTrace_of_ne_nil (by simp)⟩

theorem trace_of_program {program : List Stmt} (hcalls : m.calls = []) (hdepth : m.depth = 0)
    (h : m.interpret limit program = some (.error (.runtime cause l trace), m')) :
    ∃ before x after values m₁, program = before ++ x :: after ∧
      m.interpret limit before = some (.ok values, m₁) ∧
      ((trace = [] ∧ ∃ y, m₁.execute limit x = some (.ok y, m') ∧
          signalFault? x y = some (.runtime cause l trace)) ∨
        ∃ calls, (x.begins m₁).RaisesIn [] calls cause l ∧
          trace = if calls = [] then [] else renderTrace calls ++ ["<script>"]) := by
  obtain ⟨before, x, after, values, m₁, hprogram, hbefore, hx⟩ := interpret_error h
  refine ⟨before, x, after, values, m₁, hprogram, hbefore, ?_⟩
  rcases interpretOne_error hx with hrun | ⟨y, hy, hfault⟩
  · right
    have hregisters := registers_of_interpret hbefore
    have hcalls₁ : m₁.calls = [] := (congrArg Registers.calls hregisters).trans hcalls
    have hdepth₁ : m₁.depth = 0 := (congrArg Registers.depth hregisters).trans hdepth
    have hmachine := x.machine_begins m₁
    have hfresh : (x.begins m₁).Fresh := by cases x <;> exact State.fresh_other rfl
    have hcounted : ((x.begins m₁).onTop []).Counted := by
      cases x <;> exact State.counted_idle _ hcalls₁ hdepth₁
    have habove : State.Above [] [] (x.begins m₁) :=
      ⟨hcounted, [], by rw [hmachine, hcalls₁]; rfl, by rw [x.stack_begins]; rfl⟩
    obtain ⟨count, f₁, calls, hraises, -, hactive, hnew, hf⟩ := habove.fault_of_run hfresh hrun
    rw [hmachine, hcalls₁, List.append_nil] at hactive
    rw [List.append_nil] at hnew hf
    have hf : Fault.runtime cause l trace = f₁.withTrace calls := by
      rw [hf]
      split
      · next hnone => rw [hnone, Fault.withTrace_nil]
      · rfl
    obtain ⟨t, rfl⟩ := Fault.exists_of_withTrace hf.symm
    rw [hnew.withTrace] at hf
    cases hf
    exact ⟨calls, ⟨count, t, hraises, hactive⟩, rfl⟩
  · exact .inl ⟨trace_of_signalFault? hfault, y, hy, hfault⟩

end

end Machine

/-! ### Sessions -/

namespace Session

/-- The machines that a session leads to: between units, at every moment of a statement, and whatever
is evaluated, executed or called from outside at such a moment. Output may be taken and other units
may be resolved in between. -/
inductive Attains (time : Float) : Machine → Prop
  | between {s : Session} (hs : Reachable time s) : Attains time s.machine
  | during {st : State} (h : Begins time st) (count : Nat) : Attains time (st.steps count).machine
  | outside {m : Machine} (h : Attains time m) (focus : Focus) (count : Nat) :
      Attains time (State.steps count ⟨focus, [], m⟩).machine
  | aside {m : Machine} (h : Attains time m) (output : String) (distances : Distances) :
      Attains time { m with output := output, distances := distances }

end Session

theorem State.Above.counted_steps {below : List Frame} {calls : List String} {st : State}
    (h : st.Above below calls) (count : Nat) :
    ∃ below', ∀ focus, State.Counted ⟨focus, below', (st.steps count).machine⟩ := by
  induction count generalizing st with
  | zero => exact ⟨st.stack ++ below, fun _ => ⟨h.counted.nested, h.counted.depth, h.counted.bound⟩⟩
  | succ count ih =>
    cases hending : st.ending? with
    | none => exact ih (h.step hending).1
    | some ending =>
      rw [State.steps, State.step_of_ending? hending]
      exact ih h

theorem Session.Attains.counted {time : Float} {m : Machine} (h : Session.Attains time m) :
    ∃ below, ∀ focus, State.Counted ⟨focus, below, m⟩ := by
  induction h with
  | @between s hs =>
    exact ⟨[], fun focus => State.counted_idle focus hs.idle.calls hs.idle.depth⟩
  | @during st h count =>
    have hcounted := (h.counted.1.steps count).1
    exact ⟨_, fun _ => ⟨hcounted.nested, hcounted.depth, hcounted.bound⟩⟩
  | outside _ focus count ih =>
    obtain ⟨below, hbelow⟩ := ih
    have habove : State.Above below _ ⟨focus, [], _⟩ := ⟨hbelow focus, [], rfl, rfl⟩
    exact habove.counted_steps count
  | aside _ output distances ih =>
    obtain ⟨below, hbelow⟩ := ih
    exact ⟨below, fun focus => ⟨(hbelow focus).nested, (hbelow focus).depth, (hbelow focus).bound⟩⟩

/-- Wherever a session has led to, the traces of runtime errors name exactly the active calls. -/
theorem traces_name_active_calls {time : Float} {m : Machine} (hm : Session.Attains time m) :
    m.TracesCalls := by
  obtain ⟨below, hcounted⟩ := hm.counted
  exact {
    miscounted := fun _ _ _ _ _ _ _ _ _ harity haccepts h =>
      Machine.trace_of_miscounted harity haccepts h
    refused := fun _ _ _ _ _ _ _ _ _ harity haccepts hfull h =>
      Machine.trace_of_refused (hcounted _) harity haccepts hfull h
    entered := fun _ _ _ _ _ _ _ _ _ harity haccepts hfull h =>
      Machine.trace_of_entered (hcounted _) harity haccepts hfull h
    kept := fun cause l trace stack count htrace =>
      State.steps_traced (Fault.traced_of_trace (f := .runtime cause l trace) htrace) stack m count
    program := fun hcalls _ _ _ _ _ _ h => by
      have hdepth : m.depth = m.calls.length := (hcounted (.signal .normal)).depth
      exact Machine.trace_of_program hcalls (hdepth.trans (by rw [hcalls]; rfl)) h
    rendered := renderTrace_eq }

/-- Of a state that calls something: the active calls, what it calls with how many arguments, and how
the call fails. -/
def State.failureAhead? (limit : Nat) :
    State → Option (List String × String × Option Arity × Nat × Fault)
  | ⟨.invoke callee arguments line, _, m⟩ =>
    match m.call limit callee arguments line with
    | some (.error f, _) =>
      some (m.calls, calleeName m.heap callee, arity? m.heap callee, arguments.length, f)
    | _ => none
  | _ => none

/-- Three functions that call each other, the last one at fault. -/
def threeCalls : List UInt8 :=
  "fun g() \x7b x; \x7d fun f() \x7b g(); \x7d fun h() \x7b f(); \x7d".toUTF8.toList

/-- While `h` runs, the call of `f` fails inside of `g`. -/
theorem traces_name_active_calls_in_three :
    ∃ m callee arguments line l trace m', Session.Attains 0 m ∧ m.calls = ["h"] ∧
      State.calleeName m.heap callee = "f" ∧
      m.call 60 callee arguments line =
        some (.error (.runtime (.undefinedVariable "x") l trace), m') ∧
      trace = ["g", "f", "h", "<script>"] ∧
      ∃ inner calls, calls = inner ++ ["f", "h"] ∧
        State.RaisesIn ⟨.invoke callee arguments line, [], m⟩ ["h"] calls
          (.undefinedVariable "x") l ∧
        trace = renderTrace calls ++ ["<script>"] := by
  have h : (((Session.start 0).run 99 threeCalls).bind fun r =>
      (r.2.accept? "h();".toUTF8.toList).bind fun a =>
      a.1.head?.bind fun x => ((x.begins a.2.machine).steps 8).failureAhead? 60) =
      some (["h"], "f", some (.exactly 0), 0,
        .runtime (.undefinedVariable "x") 1 ["g", "f", "h", "<script>"]) := by
    decide +kernel
  obtain ⟨⟨result, s⟩, hrun, h⟩ := Option.bind_eq_some_iff.1 h
  obtain ⟨⟨program, s'⟩, haccept, h⟩ := Option.bind_eq_some_iff.1 h
  obtain ⟨x, hx, h⟩ := Option.bind_eq_some_iff.1 h
  obtain ⟨after, rfl⟩ := List.head?_eq_some_iff.1 hx
  have hbegins : Session.Begins 0 (x.begins s'.machine) :=
    have hnone : s'.machine.interpret 0 [] = some (.ok [], s'.machine) := rfl
    .mk (.run .start hrun) haccept hnone
  have hattains := Session.Attains.during hbegins 8
  unfold State.failureAhead? at h
  split at h
  · next callee arguments line stack m hst =>
    split at h
    · next f m' hcall =>
      obtain ⟨hcalls, hname, harity, hlength, rfl⟩ : m.calls = ["h"] ∧
          State.calleeName m.heap callee = "f" ∧
          State.arity? m.heap callee = some (.exactly 0) ∧ arguments.length = 0 ∧
          f = .runtime (.undefinedVariable "x") 1 ["g", "f", "h", "<script>"] := by
        simpa using h
      rw [hst] at hattains
      have hfew : m.calls.length ≠ 8192 := by
        rw [hcalls]
        decide
      have hentered := (traces_name_active_calls hattains).entered _ _ _ _ _ _ _ _ _ harity
        (by rw [hlength]; rfl) hfew hcall
      rw [hcalls, hname] at hentered
      exact ⟨m, callee, arguments, line, 1, _, m', hattains, hcalls, hname, hcall, rfl, hentered⟩
    · cases h
  · cases h

end TreeWalk
