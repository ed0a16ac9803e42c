import TreeWalk.Proofs.Subrun

/-!
# Raising a runtime error

A step that raises a runtime error gives it no trace, or that of the active calls at once if it refuses
a call (`State.fresh_step`). From there on the error goes down the stack. The first call that it leaves
gives it the names of all active calls, which are those at the moment at which it was raised; a trace
that is there stays (`State.steps_traced`). So the outcome of a part of a run tells which calls were
active then (`State.Above.fault_of_run`).
-/

namespace TreeWalk

/-! ### Traces of faults -/

/-- What a runtime error names if it is raised while these calls are active. -/
def callTrace (calls : List String) : List String :=
  if calls = [] then [] else renderTrace calls ++ [scriptName]

theorem callTrace_of_ne_nil {calls : List String} (h : calls ≠ []) :
    callTrace calls = renderTrace calls ++ [scriptName] := by
  rw [callTrace, if_neg h]

/-- The first sixteen names, and how many are left. -/
theorem renderTrace_eq (names : List String) : renderTrace names = names.take 16 ++
    if 16 < names.length then ["... " ++ natText (names.length - 16) ++ " more"] else [] := by
  unfold renderTrace traceLimit
  split
  · rfl
  · next h => rw [List.take_of_length_le (Nat.le_of_not_lt h), List.append_nil]

namespace Fault

variable {f : Fault} {cause : RunCause} {line : Nat} {trace : List String} {calls : List String}

theorem withTrace_nil (f : Fault) : f.withTrace [] = f := by
  cases f with
  | conversion => rfl
  | runtime cause line trace => cases trace <;> rfl

/-- No call that the fault leaves gives it another trace. -/
def Traced (f : Fault) : Prop :=
  ∀ calls, f.withTrace calls = f

theorem traced_of_trace (h : f.trace ≠ []) : f.Traced := by
  intro calls
  cases f with
  | conversion => rfl
  | runtime cause line trace =>
    cases trace with
    | nil => exact absurd rfl h
    | cons => rfl

theorem withTrace_of_nil (cause : RunCause) (line : Nat) (calls : List String) :
    (runtime cause line []).withTrace calls = .runtime cause line (callTrace calls) := by
  cases calls <;> rfl

/-- Any call that is left gives the fault a trace that stays. -/
theorem traced_withTrace (f : Fault) (h : calls ≠ []) : (f.withTrace calls).Traced := by
  cases f with
  | conversion => exact fun _ => rfl
  | runtime cause line trace =>
    cases trace with
    | nil =>
      rw [withTrace_of_nil, callTrace_of_ne_nil h]
      exact traced_of_trace (by simp [Fault.trace])
    | cons => exact fun _ => rfl

theorem exists_of_withTrace (h : f.withTrace calls = .runtime cause line trace) :
    ∃ trace', f = .runtime cause line trace' := by
  cases f with
  | conversion => cases h
  | runtime cause' line' trace' =>
    cases trace' with
    | nil =>
      rw [withTrace_of_nil] at h
      cases h
      exact ⟨[], rfl⟩
    | cons =>
      cases h
      exact ⟨_, rfl⟩

/-- A fault that has just been raised names no calls, or those that are active. -/
def Fresh (calls : List String) (f : Fault) : Prop :=
  f.trace = [] ∨ f.trace = callTrace calls

theorem Fresh.withTrace (h : Fresh calls (.runtime cause line trace)) :
    (runtime cause line trace).withTrace calls = .runtime cause line (callTrace calls) := by
  rcases h with h | h
  · obtain rfl : trace = [] := h
    exact withTrace_of_nil cause line calls
  · obtain rfl : trace = callTrace calls := h
    by_cases hcalls : calls = []
    · rw [hcalls]
      exact withTrace_nil _
    · refine traced_of_trace ?_ calls
      rw [Fault.trace, callTrace_of_ne_nil hcalls]
      simp

end Fault

def Focus.isFault : Focus → Bool
  | .fault _ => true
  | _ => false

namespace State

/-! ### Raising a fault -/

/-- If the state has a fault, it has just been raised. -/
def Fresh (st : State) : Prop :=
  ∀ f, st.focus = .fault f → f.Fresh st.machine.calls

variable {st : State} {stack : List Frame} {m : Machine}

theorem fresh_other {focus : Focus} (h : focus.isFault = false) : Fresh ⟨focus, stack, m⟩ := by
  intro f hf
  obtain rfl : focus = .fault f := hf
  cases h

theorem fresh_fault {f : Fault} (h : f.trace = []) : Fresh ⟨.fault f, stack, m⟩ := by
  rintro _ ⟨⟩
  exact .inl h

theorem fresh_settle {outcome : Except Fault Value} (h : Harmless outcome) :
    (settle outcome stack m).Fresh := by
  cases outcome with
  | ok v => exact fresh_other rfl
  | error f => exact fresh_fault (h f rfl).trace

theorem fresh_runStmts (ss : List Stmt) : (runStmts ss stack m).Fresh := by
  cases ss <;> exact fresh_other rfl

theorem fresh_stepVariable (operator : Token) (size : Float) (name : Token) (fixity : Fixity) :
    (stepVariable operator size name fixity stack m).Fresh := by
  unfold stepVariable
  split
  · exact fresh_fault rfl
  · split
    · exact fresh_fault rfl
    · split
      · next hn => exact fresh_fault (m.heap.number_harmless hn).trace
      · exact fresh_settle (m.heap.unary_harmless _ _ _)

theorem fresh_argumentsFrom (callee : Value) (paren : Token) (done : List Value) (todo : List Expr) :
    (argumentsFrom callee paren done todo stack m).Fresh := by
  cases todo <;> exact fresh_other rfl

theorem fresh_elementsFrom (done : List Value) (todo : List Expr) :
    (elementsFrom done todo stack m).Fresh := by
  cases todo <;> exact fresh_other rfl

theorem fresh_variablesFrom (bindings : List (Token × Option Expr)) :
    (variablesFrom bindings stack m).Fresh := by
  induction bindings generalizing m with
  | nil => exact fresh_other rfl
  | cons b rest ih =>
    obtain ⟨name, _ | value⟩ := b
    · exact ih
    · exact fresh_other rfl

theorem fresh_evaluate (e : Expr) : (evaluate e stack m).Fresh := by
  cases e with
  | unary operator operand fixity =>
    show (unary operator operand fixity stack m).Fresh
    unfold unary
    split
    · exact fresh_stepVariable _ _ _ _
    · exact fresh_other rfl
  | «variable» | this => exact fresh_settle (m.lookUp_harmless _ _)
  | array bracket elements => exact fresh_elementsFrom [] elements
  | _ => exact fresh_other rfl

theorem fresh_execute (x : Stmt) : (execute x stack m).Fresh := by
  cases x with
  | block body => exact fresh_runStmts body
  | var bindings => exact fresh_variablesFrom bindings
  | returning keyword value => cases value <;> exact fresh_other rfl
  | _ => exact fresh_other rfl

theorem fresh_enterCallee (callee : Value) (arguments : List Value) (line : Nat) :
    (enterCallee callee arguments line stack m).Fresh := by
  cases callee with
  | builtin b => exact fresh_settle (b.apply_harmless _ _ _ _)
  | function r => exact fresh_runStmts _
  | class_ r =>
    simp only [enterCallee, instantiate]
    split
    · exact fresh_other rfl
    · exact fresh_runStmts _
  | _ => exact fresh_fault rfl

/-- A call that is refused names the active calls, although it leaves none. -/
theorem fresh_invoke (callee : Value) (arguments : List Value) (line : Nat) :
    (invoke callee arguments line stack m).Fresh := by
  unfold invoke
  split
  · exact fresh_fault rfl
  · split
    · exact fresh_fault rfl
    · split
      · rintro _ ⟨⟩
        refine .inr ?_
        rw [Fault.onLine, Fault.withTrace_of_nil]
        rfl
      · exact fresh_enterCallee callee arguments line

theorem fresh_giveValue (v : Value) (frame : Frame) : (giveValue v frame stack m).Fresh := by
  cases frame with
  | unary => exact fresh_settle (m.heap.unary_harmless _ _ _)
  | binaryRight => exact fresh_settle (m.heap.binary_harmless _ _ _)
  | position => exact fresh_settle (m.heap.index_harmless _ _ _)
  | logical | condition =>
    simp only [giveValue]
    split
    · exact fresh_other rfl
    · exact fresh_other rfl
  | assign reference name =>
    simp only [giveValue]
    split
    · exact fresh_other rfl
    · exact fresh_fault rfl
  | callee paren arguments =>
    simp only [giveValue]
    split
    · exact fresh_argumentsFrom _ _ _ _
    · exact fresh_fault rfl
  | arguments => exact fresh_argumentsFrom _ _ _ _
  | elements => exact fresh_elementsFrom _ _
  | get name =>
    cases v with
    | instance_ r =>
      show (property r name stack m).Fresh
      unfold property
      split
      · exact fresh_other rfl
      · split
        · exact fresh_other rfl
        · exact fresh_fault rfl
    | _ => exact fresh_fault rfl
  | setObject name value =>
    cases v with
    | instance_ r => exact fresh_other rfl
    | _ => exact fresh_fault rfl
  | var name rest => exact fresh_variablesFrom rest
  | conditional whenTrue whenFalse =>
    simp only [giveValue]
    split
    · exact fresh_other rfl
    · cases whenFalse <;> exact fresh_other rfl
  | _ => exact fresh_other rfl

theorem fresh_giveSignal (x : Signal) (frame : Frame) : (giveSignal x frame stack m).Fresh := by
  cases frame with
  | sequence rest =>
    cases x with
    | normal => exact fresh_runStmts rest
    | _ => exact fresh_other rfl
  | round loop =>
    cases x with
    | normal | nextRound =>
      simp only [giveSignal, nextRound]
      split
      · exact fresh_other rfl
      · exact fresh_other rfl
    | _ => exact fresh_other rfl
  | body f => exact fresh_settle (bodyValue_harmless f x m)
  | _ => exact fresh_other rfl

/-- A step raises faults with no other trace than that of the active calls. -/
theorem fresh_step (h : ∀ f, st.focus ≠ .fault f) : st.step.Fresh := by
  obtain ⟨focus, stack, m⟩ := st
  cases focus with
  | evaluate e => exact fresh_evaluate e
  | execute x => exact fresh_execute x
  | invoke callee arguments line => exact fresh_invoke callee arguments line
  | value v =>
    cases stack with
    | nil => exact fresh_other rfl
    | cons frame stack => exact fresh_giveValue v frame
  | signal x =>
    cases stack with
    | nil => exact fresh_other rfl
    | cons frame stack => exact fresh_giveSignal x frame
  | fault f => exact absurd rfl (h f)

/-! ### Leaving calls with a fault -/

variable {f : Fault} {ending : Ending} {m' : Machine} {limit : Nat}

theorem giveFault_of_not_leave {frame : Frame} (h : frame.isLeave = false) (f : Fault)
    (stack : List Frame) (m : Machine) :
    ∃ m₁, giveFault f frame stack m = ⟨.fault f, stack, m₁⟩ ∧ m₁.calls = m.calls := by
  cases frame with
  | leave => cases h
  | restore scope => exact ⟨{ m with scope := scope }, rfl, rfl⟩
  | _ => exact ⟨m, rfl, rfl⟩

/-- A fault with a trace goes down the stack as it is. -/
theorem steps_traced (h : f.Traced) (stack : List Frame) (m : Machine) (count : Nat) :
    (State.steps count ⟨.fault f, stack, m⟩).focus = .fault f := by
  induction count generalizing stack m with
  | zero => rfl
  | succ count ih =>
    cases stack with
    | nil => exact ih [] m
    | cons frame stack =>
      show (State.steps count (giveFault f frame stack m)).focus = .fault f
      cases hleave : frame.isLeave with
      | false =>
        obtain ⟨m₁, hstep, -⟩ := giveFault_of_not_leave hleave f stack m
        rw [hstep]
        exact ih stack m₁
      | true =>
        cases frame <;> cases hleave
        rw [giveFault, h m.calls]
        exact ih stack m.leaveCall

theorem run_traced (h : f.Traced)
    (hrun : State.run limit ⟨.fault f, stack, m⟩ = some (ending, m')) : ending = .fault f := by
  have hending := ending?_eq_some.1 (steps_of_run hrun).1
  have hfocus := steps_traced h stack m limit
  rw [hending] at hfocus
  cases ending <;> cases hfocus
  rfl

/-- The first call that a fault leaves gives it its trace. -/
theorem run_fault (hcalls : leaves stack ≠ 0 → m.calls ≠ [])
    (hrun : State.run limit ⟨.fault f, stack, m⟩ = some (ending, m')) :
    ending = .fault (if leaves stack = 0 then f else f.withTrace m.calls) := by
  induction stack generalizing limit m with
  | nil =>
    cases limit with
    | zero => cases hrun
    | succ limit =>
      cases hrun
      rfl
  | cons frame stack ih =>
    cases limit with
    | zero => cases hrun
    | succ limit =>
      change State.run limit (giveFault f frame stack m) = _ at hrun
      cases hleave : frame.isLeave with
      | false =>
        have hleaves : leaves (frame :: stack) = leaves stack := by
          simp [leaves, hleave]
        obtain ⟨m₁, hstep, hsame⟩ := giveFault_of_not_leave hleave f stack m
        rw [hstep] at hrun
        rw [hleaves] at hcalls ⊢
        rw [← hsame] at hcalls ⊢
        exact ih hcalls hrun
      | true =>
        cases frame <;> cases hleave
        have hleaves : leaves (.leave :: stack) ≠ 0 := by
          simp [leaves, List.countP_cons, Frame.isLeave]
        rw [if_neg hleaves]
        exact run_traced (f.traced_withTrace (hcalls hleaves)) hrun

/-! ### Runs that raise a fault -/

/-- After so many steps, and not before, the state has the fault. -/
structure Raises (st : State) (count : Nat) (f : Fault) : Prop where
  fault : (st.steps count).focus = .fault f
  before : ∀ j < count, ∀ f', (st.steps j).focus ≠ .fault f'

/-- The error is raised while `calls` are active, if `before` are when the state is reached. -/
def RaisesIn (st : State) (before calls : List String) (cause : RunCause) (line : Nat) : Prop :=
  ∃ count trace, st.Raises count (.runtime cause line trace) ∧ st.activeAfter count before = calls

theorem Raises.succ {count : Nat} (h : st.step.Raises count f) (hst : ∀ f', st.focus ≠ .fault f') :
    st.Raises (count + 1) f := by
  refine ⟨h.fault, fun j hj => ?_⟩
  cases j with
  | zero => exact hst
  | succ j => exact h.before j (Nat.lt_of_succ_lt_succ hj)

theorem Raises.onTop {count : Nat} (h : st.Raises count f) (hrunning : st.Running count)
    (below : List Frame) : (st.onTop below).Raises count f := by
  refine ⟨?_, fun j hj => ?_⟩
  · rw [steps_onTop hrunning]
    exact h.fault
  · rw [steps_onTop (hrunning.of_le (Nat.le_of_lt hj))]
    exact h.before j hj

/-- A run that ends with a fault has raised one, and has had no outcome before that. -/
theorem exists_raises (h : st.run limit = some (.fault f, m')) :
    ∃ count limit' f₁, st.Raises count f₁ ∧ st.Running count ∧
      (st.steps count).run limit' = some (.fault f, m') := by
  induction limit generalizing st with
  | zero => cases h
  | succ limit ih =>
    by_cases hfault : ∃ f₁, st.focus = .fault f₁
    · obtain ⟨f₁, hfault⟩ := hfault
      have hnone : ∀ {p : Nat → Prop}, ∀ j < 0, p j := fun j hj => absurd hj (Nat.not_lt_zero j)
      exact ⟨0, limit + 1, f₁, ⟨hfault, hnone⟩, hnone, h⟩
    · have hnot : ∀ f₁, st.focus ≠ .fault f₁ := fun f₁ heq => hfault ⟨f₁, heq⟩
      cases hending : st.ending? with
      | some ending =>
        rw [run, hending] at h
        cases h
        exact absurd (congrArg State.focus (ending?_eq_some.1 hending)) (hnot f)
      | none =>
        rw [run, hending] at h
        obtain ⟨count, limit', f₁, hraises, hrunning, hrest⟩ := ih h
        exact ⟨count + 1, limit', f₁, hraises.succ hnot, hrunning.succ hending, hrest⟩

/-- What is raised is fresh. -/
theorem Raises.fresh {count : Nat} (h : st.Raises count f) (hst : st.Fresh) :
    f.Fresh (st.steps count).machine.calls := by
  cases count with
  | zero => exact hst f h.fault
  | succ count =>
    have hfault := h.fault
    rw [steps_succ] at hfault ⊢
    exact fresh_step (h.before count (Nat.lt_succ_self _)) f hfault

namespace Above

variable {below : List Frame} {calls : List String}

/-- A fault at the end of a part of a run has the trace of the calls that were active when it was
raised, unless only those from before the part were. -/
theorem fault_of_run (h : Above below calls st) (hst : st.Fresh)
    (hrun : st.run limit = some (.fault f, m')) :
    ∃ count f₁ inner, st.Raises count f₁ ∧ st.Running count ∧
      st.activeAfter count st.machine.calls = inner ++ calls ∧ f₁.Fresh (inner ++ calls) ∧
      f = if inner = [] then f₁ else f₁.withTrace (inner ++ calls) := by
  obtain ⟨count, limit', f₁, hraises, hrunning, hrest⟩ := exists_raises hrun
  obtain ⟨habove, hactive⟩ := h.steps hrunning
  have hfresh := hraises.fresh hst
  have hfault := hraises.fault
  obtain ⟨inner, hcalls, hinner⟩ := habove.calls
  generalize st.steps count = st' at *
  obtain ⟨focus, stack, m⟩ := st'
  obtain rfl : focus = .fault f₁ := hfault
  obtain hcalls : m.calls = inner ++ calls := hcalls
  obtain hinner : inner.length = leaves stack := hinner
  refine ⟨count, f₁, inner, hraises, hrunning, hactive.symm.trans hcalls, hcalls ▸ hfresh, ?_⟩
  -- From here on the fault only goes down the stack.
  have hend := run_fault (fun hleaves hnil => hleaves ?_) hrest
  · cases hend
    rw [hcalls, ← hinner]
    simp only [List.length_eq_zero_iff]
  · rw [hcalls] at hnil
    rw [← hinner, (List.append_eq_nil_iff.1 hnil).1]
    rfl

end Above

end State

end TreeWalk
