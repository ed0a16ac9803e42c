import TreeWalk.Proofs.Depth

/-!
# Runs on top of other frames

What a step does does not depend on the frames below those that it takes off. So a state runs on top
of other frames as it does by itself (`steps_onTop`), until it has an outcome; then the frames below get
the outcome (`run_onTop`, `run_below`).
-/

namespace TreeWalk

/-- What a run that ends so attends to last. -/
def Ending.focus : Ending → Focus
  | .value v => .value v
  | .signal x => .signal x
  | .fault f => .fault f

namespace State

/-- The state with other frames below its own. -/
def onTop (st : State) (below : List Frame) : State :=
  { st with stack := st.stack ++ below }

variable {st : State} {stack below : List Frame} {m : Machine}

theorem settle_onTop (outcome : Except Fault Value) :
    settle outcome (stack ++ below) m = (settle outcome stack m).onTop below := by
  cases outcome <;> rfl

theorem runStmts_onTop (stack : List Frame) (ss : List Stmt) :
    runStmts ss (stack ++ below) m = (runStmts ss stack m).onTop below := by
  cases ss <;> rfl

theorem stepVariable_onTop (operator : Token) (size : Float) (name : Token) (fixity : Fixity) :
    stepVariable operator size name fixity (stack ++ below) m =
      (stepVariable operator size name fixity stack m).onTop below := by
  unfold stepVariable
  split
  · rfl
  · split
    · rfl
    · split
      · rfl
      · exact settle_onTop _

theorem argumentsFrom_onTop (callee : Value) (paren : Token) (done : List Value) (todo : List Expr) :
    argumentsFrom callee paren done todo (stack ++ below) m =
      (argumentsFrom callee paren done todo stack m).onTop below := by
  cases todo <;> rfl

theorem elementsFrom_onTop (done : List Value) (todo : List Expr) :
    elementsFrom done todo (stack ++ below) m = (elementsFrom done todo stack m).onTop below := by
  cases todo <;> rfl

theorem variablesFrom_onTop (bindings : List (Token × Option Expr)) :
    variablesFrom bindings (stack ++ below) m = (variablesFrom bindings stack m).onTop below := by
  induction bindings generalizing m with
  | nil => rfl
  | cons b rest ih =>
    obtain ⟨name, _ | value⟩ := b
    · exact ih
    · rfl

theorem evaluate_onTop (e : Expr) :
    evaluate e (stack ++ below) m = (evaluate e stack m).onTop below := by
  cases e with
  | unary operator operand fixity =>
    show unary operator operand fixity _ m = (unary operator operand fixity stack m).onTop below
    unfold unary
    split
    · exact stepVariable_onTop _ _ _ _
    · rfl
  | «variable» | this => exact settle_onTop _
  | array bracket elements => exact elementsFrom_onTop [] elements
  | _ => rfl

theorem execute_onTop (x : Stmt) :
    execute x (stack ++ below) m = (execute x stack m).onTop below := by
  cases x with
  | block body => exact runStmts_onTop (.restore m.scope :: stack) body
  | var bindings => exact variablesFrom_onTop bindings
  | returning keyword value => cases value <;> rfl
  | _ => rfl

theorem enterBody_onTop (stack : List Frame) (f : Function) (arguments : List Value) :
    enterBody f arguments (stack ++ below) m = (enterBody f arguments stack m).onTop below :=
  runStmts_onTop (.restore m.scope :: .body f :: stack) f.decl.body

theorem enterCallee_onTop (stack : List Frame) (callee : Value) (arguments : List Value)
    (line : Nat) :
    enterCallee callee arguments line (stack ++ below) m =
      (enterCallee callee arguments line stack m).onTop below := by
  cases callee with
  | builtin b => exact settle_onTop _
  | function r => exact enterBody_onTop _ _ arguments
  | class_ r =>
    simp only [enterCallee, instantiate]
    split
    · rfl
    · exact enterBody_onTop (.construct _ :: stack) _ arguments
  | _ => rfl

theorem invoke_onTop (callee : Value) (arguments : List Value) (line : Nat) :
    invoke callee arguments line (stack ++ below) m =
      (invoke callee arguments line stack m).onTop below := by
  unfold invoke
  split
  · rfl
  · split
    · rfl
    · split
      · rfl
      · exact enterCallee_onTop (.leave :: stack) callee arguments line

theorem property_onTop (r : Nat) (name : Token) :
    property r name (stack ++ below) m = (property r name stack m).onTop below := by
  unfold property
  split
  · rfl
  · split
    · rfl
    · rfl

theorem nextRound_onTop (loop : Loop) :
    nextRound loop (stack ++ below) m = (nextRound loop stack m).onTop below := by
  unfold nextRound
  split
  · rfl
  · rfl

theorem giveValue_onTop (v : Value) (frame : Frame) :
    giveValue v frame (stack ++ below) m = (giveValue v frame stack m).onTop below := by
  cases frame with
  | unary | binaryRight | position => exact settle_onTop _
  | logical | assign | condition =>
    simp only [giveValue]
    split
    · rfl
    · rfl
  | callee paren arguments =>
    simp only [giveValue]
    split
    · exact argumentsFrom_onTop _ _ _ _
    · rfl
  | arguments => exact argumentsFrom_onTop _ _ _ _
  | elements => exact elementsFrom_onTop _ _
  | get name =>
    cases v with
    | instance_ r => exact property_onTop r name
    | _ => rfl
  | setObject name value => cases v <;> rfl
  | var name rest => exact variablesFrom_onTop rest
  | conditional whenTrue whenFalse =>
    simp only [giveValue]
    split
    · rfl
    · cases whenFalse <;> rfl
  | _ => rfl

theorem giveSignal_onTop (x : Signal) (frame : Frame) :
    giveSignal x frame (stack ++ below) m = (giveSignal x frame stack m).onTop below := by
  cases frame with
  | sequence rest =>
    cases x with
    | normal => exact runStmts_onTop stack rest
    | _ => rfl
  | round loop =>
    cases x with
    | normal | nextRound => exact nextRound_onTop loop
    | _ => rfl
  | body f => exact settle_onTop _
  | _ => rfl

theorem giveFault_onTop (f : Fault) (frame : Frame) :
    giveFault f frame (stack ++ below) m = (giveFault f frame stack m).onTop below := by
  cases frame <;> rfl

/-- As long as a state has no outcome, the frames below its own do not matter. -/
theorem step_onTop (h : st.ending? = none) : (st.onTop below).step = st.step.onTop below := by
  obtain ⟨focus, stack, m⟩ := st
  cases focus with
  | evaluate e => exact evaluate_onTop e
  | execute x => exact execute_onTop x
  | invoke callee arguments line => exact invoke_onTop callee arguments line
  | value v =>
    cases stack with
    | nil => cases h
    | cons frame stack => exact giveValue_onTop v frame
  | signal x =>
    cases stack with
    | nil => cases h
    | cons frame stack => exact giveSignal_onTop x frame
  | fault f =>
    cases stack with
    | nil => cases h
    | cons frame stack => exact giveFault_onTop f frame

/-! ### Runs -/

theorem steps_succ (st : State) (count : Nat) : st.steps (count + 1) = (st.steps count).step := by
  induction count generalizing st with
  | zero => rfl
  | succ count ih => exact ih st.step

theorem ending?_onTop (h : st.ending? = none) : (st.onTop below).ending? = none := by
  obtain ⟨focus, stack, m⟩ := st
  cases stack with
  | nil => cases focus <;> first | rfl | cases h
  | cons frame stack => cases focus <;> rfl

/-- There is no outcome before so many steps. -/
def Running (st : State) (count : Nat) : Prop :=
  ∀ j < count, (st.steps j).ending? = none

namespace Running

variable {count : Nat}

theorem first (h : st.Running (count + 1)) : st.ending? = none :=
  h 0 (Nat.zero_lt_succ _)

theorem rest (h : st.Running (count + 1)) : st.step.Running count :=
  fun j hj => h (j + 1) (Nat.succ_lt_succ hj)

theorem succ (hfirst : st.ending? = none) (h : st.step.Running count) : st.Running (count + 1) := by
  intro j hj
  cases j with
  | zero => exact hfirst
  | succ j => exact h j (Nat.lt_of_succ_lt_succ hj)

theorem of_le {count' : Nat} (h : st.Running count) (hle : count' ≤ count) : st.Running count' :=
  fun j hj => h j (Nat.lt_of_lt_of_le hj hle)

end Running

theorem steps_onTop {count : Nat} (h : st.Running count) :
    (st.onTop below).steps count = (st.steps count).onTop below := by
  induction count generalizing st with
  | zero => rfl
  | succ count ih =>
    rw [steps, steps, step_onTop h.first]
    exact ih h.rest

variable {ending : Ending} {m' : Machine} {limit : Nat}

theorem ending?_eq_some : st.ending? = some ending ↔ st = ⟨ending.focus, [], st.machine⟩ := by
  obtain ⟨focus, stack, m⟩ := st
  constructor
  · intro h
    cases stack with
    | nil => cases focus <;> cases h <;> rfl
    | cons frame stack => cases focus <;> cases h
  · intro h
    rw [h]
    cases ending <;> rfl

/-- A run is so many steps, with an outcome after the last one only. -/
theorem running_of_run (h : st.run limit = some (ending, m')) :
    ∃ count, st.Running count ∧ st.steps count = ⟨ending.focus, [], m'⟩ := by
  induction limit generalizing st with
  | zero => cases h
  | succ limit ih =>
    rw [run] at h
    cases hending : st.ending? with
    | some ending' =>
      rw [hending] at h
      cases h
      exact ⟨0, fun j hj => absurd hj (Nat.not_lt_zero j), ending?_eq_some.1 hending⟩
    | none =>
      rw [hending] at h
      obtain ⟨count, hrunning, hsteps⟩ := ih h
      exact ⟨count + 1, hrunning.succ hending, hsteps⟩

/-- A run on top of other frames is the run by itself, and then the frames get its outcome. -/
theorem run_onTop (h : (st.onTop below).run limit = some (ending, m')) :
    ∃ limit₁ limit₂ ending₁ m₁, st.run limit₁ = some (ending₁, m₁) ∧
      State.run limit₂ ⟨ending₁.focus, below, m₁⟩ = some (ending, m') := by
  induction limit generalizing st with
  | zero => cases h
  | succ limit ih =>
    cases hending : st.ending? with
    | some ending₁ =>
      have hst := ending?_eq_some.1 hending
      refine ⟨1, limit + 1, ending₁, st.machine, by rw [run, hending], ?_⟩
      rw [hst] at h
      exact h
    | none =>
      rw [run, ending?_onTop hending] at h
      dsimp only at h
      rw [step_onTop hending] at h
      obtain ⟨limit₁, limit₂, ending₁, m₁, hrun, hrest⟩ := ih h
      refine ⟨limit₁ + 1, limit₂, ending₁, m₁, ?_, hrest⟩
      rw [run, hending]
      exact hrun

/-- A run that has an outcome hands it to the frames below. -/
theorem run_below (h : st.run limit = some (ending, m')) (below : List Frame) :
    ∃ count, ∀ more, (st.onTop below).run (count + more) =
      State.run more ⟨ending.focus, below, m'⟩ := by
  induction limit generalizing st with
  | zero => cases h
  | succ limit ih =>
    rw [run] at h
    cases hending : st.ending? with
    | some ending' =>
      rw [hending] at h
      cases h
      refine ⟨0, fun more => ?_⟩
      rw [ending?_eq_some.1 hending, Nat.zero_add]
      rfl
    | none =>
      rw [hending] at h
      obtain ⟨count, hcount⟩ := ih h
      refine ⟨count + 1, fun more => ?_⟩
      rw [Nat.add_right_comm, run, ending?_onTop hending, step_onTop hending]
      exact hcount more

/-- The outcome of a run does not depend on how many steps it may take. -/
theorem run_unique {limit' : Nat} {r r' : Ending × Machine} (h : st.run limit = some r)
    (h' : st.run limit' = some r') : r = r' := by
  induction limit generalizing st limit' with
  | zero => cases h
  | succ limit ih =>
    cases limit' with
    | zero => cases h'
    | succ limit' =>
      rw [run] at h h'
      cases hending : st.ending? with
      | some ending' =>
        rw [hending] at h h'
        exact Option.some.inj (h.symm.trans h')
      | none =>
        rw [hending] at h h'
        exact ih h h'

/-! ### Calls of a part of a run -/

theorem leaves_append (stack below : List Frame) :
    leaves (stack ++ below) = leaves stack + leaves below :=
  List.countP_append

theorem active_onTop {below : List Frame} (h : st.ending? = none) (calls : List String) :
    (st.onTop below).active calls = st.active calls := by
  have hbefore : leaves (st.onTop below).stack = leaves st.stack + leaves below :=
    leaves_append st.stack below
  have hafter : leaves (st.onTop below).step.stack = leaves st.step.stack + leaves below := by
    rw [step_onTop h]
    exact leaves_append st.step.stack below
  unfold active
  rw [hbefore, hafter]
  simp only [Nat.add_lt_add_iff_right]
  rfl

theorem activeAfter_onTop {below : List Frame} {count : Nat} (h : st.Running count)
    (calls : List String) : (st.onTop below).activeAfter count calls = st.activeAfter count calls := by
  induction count generalizing st calls with
  | zero => rfl
  | succ count ih =>
    rw [activeAfter, activeAfter, active_onTop h.first, step_onTop h.first]
    exact ih h.rest _

/-- The state is one of a run that began on top of `below` while `calls` were active. -/
structure Above (below : List Frame) (calls : List String) (st : State) : Prop where
  counted : (st.onTop below).Counted
  calls : ∃ inner, st.machine.calls = inner ++ calls ∧ inner.length = leaves st.stack

namespace Above

variable {below : List Frame} {calls : List String}

theorem leaves_below (h : Above below calls st) : leaves below = calls.length := by
  obtain ⟨inner, hcalls, hinner⟩ := h.calls
  have hnested : leaves (st.stack ++ below) = st.machine.calls.length := h.counted.nested.leaves_eq
  rw [leaves_append, hcalls, List.length_append] at hnested
  omega

/-- A part of a run leaves the calls alone that were active before it. -/
theorem step (h : Above below calls st) (hrunning : st.ending? = none) :
    Above below calls st.step ∧ st.step.machine.calls = st.active st.machine.calls := by
  have hcounted := (counted_step h.counted).1
  have hactive : (st.onTop below).step.machine.calls = (st.onTop below).active st.machine.calls :=
    h.counted.active
  rw [active_onTop hrunning] at hactive
  rw [step_onTop hrunning] at hcounted hactive
  have hactive : st.step.machine.calls = st.active st.machine.calls := hactive
  refine ⟨⟨hcounted, ?_⟩, hactive⟩
  have hbelow := h.leaves_below
  have hnested : leaves (st.step.stack ++ below) = st.step.machine.calls.length :=
    hcounted.nested.leaves_eq
  obtain ⟨inner, hcalls, hinner⟩ := h.calls
  -- A step that ends a call has a frame to leave by above `below`, so the call is one of `inner`.
  rw [leaves_append, hactive, hcalls] at hnested
  rw [hactive, hcalls]
  unfold active at hnested ⊢
  split
  · next hmore =>
    rw [if_pos hmore, List.length_cons, List.length_append] at hnested
    exact ⟨st.calledName :: inner, rfl, by rw [List.length_cons]; omega⟩
  · next hmore =>
    rw [if_neg hmore] at hnested
    split
    · next hless =>
      rw [if_pos hless] at hnested
      cases inner with
      | nil =>
        rw [← hinner] at hless
        exact absurd hless (Nat.not_lt_zero _)
      | cons name inner =>
        simp only [List.cons_append, List.tail_cons, List.length_append] at hnested
        exact ⟨inner, rfl, by omega⟩
    · next hless =>
      rw [if_neg hless, List.length_append] at hnested
      exact ⟨inner, rfl, by omega⟩

theorem steps {count : Nat} (h : Above below calls st) (hrunning : st.Running count) :
    Above below calls (st.steps count) ∧
      (st.steps count).machine.calls = st.activeAfter count st.machine.calls := by
  induction count generalizing st with
  | zero => exact ⟨h, rfl⟩
  | succ count ih =>
    obtain ⟨hstep, hactive⟩ := h.step hrunning.first
    obtain ⟨habove, hcalls⟩ := ih hstep hrunning.rest
    refine ⟨habove, ?_⟩
    rw [State.steps, hcalls, activeAfter, hactive]

end Above

end State

end TreeWalk
