import Mathlib.Logic.Relation
import TreeWalk.Proofs.Enclosing
import TreeWalk.Proofs.Lasting
import TreeWalk.Proofs.Respacing

/-!
# The timeline of a session

A session goes from stage to stage (`Session.Next`): a unit is refused or accepted, the machine takes a
step of the statement at hand, the next statement begins, the unit is over. Every run of a unit is a part
of such a timeline (`Session.reaches_run`), and units that never end have one too. What holds of every
stage (`Stage.Orderly`) is kept by each `Next`, so that later stages can be compared with earlier ones:
the heap has only grown, and scopes are where they were, with the `this` that they had (`Next.keeps`).
-/

namespace TreeWalk

/-! ### Words of a source -/

/-- A token that the scanner makes of a lexeme is spelled like `this` only if it is the keyword. -/
theorem Lexer.Readable.worded {t : Token} (h : Lexer.Readable t) : t.Worded := by
  obtain ⟨c, -, hstands⟩ := h
  obtain ⟨kind, lexeme, line⟩ := t
  cases hstands with
  | symbol | number | string => exact ⟨nofun, nofun⟩
  | name _ hname => exact ⟨fun _ => (hname .this_).symm, nofun⟩
  | @keyword k =>
    refine ⟨nofun, fun hk => ?_⟩
    cases k <;> first | rfl | cases hk

theorem Lexer.worded_of_tokens {source : List UInt8} {ts : List Token}
    (h : Lexer.tokens source = .ok ts) : ∀ t ∈ ts, t.isEnd = false → t.Worded := by
  obtain ⟨ts, rfl, -⟩ := Lexer.terminated_tokens h
  intro t ht hend
  rcases List.mem_append.1 ht with ht | ht
  · exact (Lexer.readable_of_tokens h t ht).worded
  · obtain rfl := List.mem_singleton.1 ht
    cases hend

theorem Session.worded_of_parse {s s' : Session} {source : List UInt8} {program : List Stmt}
    (h : s.parse source = (.ok program, s')) : stmtsSpelled Token.Worded program := by
  unfold Session.parse at h
  split at h
  · cases h
  · next hscan =>
    split at h
    · cases h
    · next hparse =>
      cases h
      exact stmtsSpelled_of_parseProgram (congrArg Prod.fst hparse) (Lexer.worded_of_tokens hscan)

namespace Session

open Relation (ReflTransGen)

/-! ### Stages -/

/-- Where a session stands. -/
inductive Stage where
  /-- No unit runs. -/
  | between (s : Session)
  /-- A statement of a unit runs; `rest` are those after it. -/
  | running (st : State) (rest : List Stmt) (nextReference : Nat)

namespace Stage

/-- Before the first of the statements, or behind the unit if there is none. -/
def before (m : Machine) (nextReference : Nat) : List Stmt → Stage
  | [] => .between ⟨m, nextReference⟩
  | x :: rest => .running (x.begins m) rest nextReference

def machine : Stage → Machine
  | .between s => s.machine
  | .running st _ _ => st.machine

theorem machine_before (m : Machine) (n : Nat) (ss : List Stmt) : (before m n ss).machine = m := by
  cases ss with
  | nil => rfl
  | cons x rest => exact x.machine_begins m

end Stage

inductive Next : Stage → Stage → Prop
  | unread {source : List UInt8} {s s' : Session} {d : Diagnostic}
      (h : s.parse source = (.error d, s')) : Next (.between s) (.between s')
  | rejected {source : List UInt8} {s s₁ s' : Session} {program : List Stmt} {d : Diagnostic}
      (hp : s.parse source = (.ok program, s₁)) (h : s₁.resolve program = (.error d, s')) :
      Next (.between s) (.between s')
  | accepted {source : List UInt8} {s s' : Session} {program : List Stmt}
      (h : s.accept? source = some (program, s')) :
      Next (.between s) (.before s'.machine s'.nextReference program)
  | step {st : State} {rest : List Stmt} {n : Nat} (h : st.ending? = none) :
      Next (.running st rest n) (.running st.step rest n)
  | done {st : State} {rest : List Stmt} {n : Nat} {ending : Ending}
      (h : st.ending? = some ending) (hok : ending.fails = false) :
      Next (.running st rest n) (.before st.machine n rest)
  | failed {st : State} {rest : List Stmt} {n : Nat} {ending : Ending}
      (h : st.ending? = some ending) (hfails : ending.fails = true) :
      Next (.running st rest n) (.between ⟨st.machine, n⟩)

/-! ### Runs are parts of timelines -/

variable {s s' : Session} {n limit : Nat} {rest program : List Stmt} {source : List UInt8}

theorem reaches_steps (st : State) (rest : List Stmt) (n count : Nat) :
    ReflTransGen Next (.running st rest n) (.running (st.steps count) rest n) := by
  induction count generalizing st with
  | zero => exact .refl
  | succ count ih =>
    cases hending : st.ending? with
    | none => exact (ih st.step).head (.step hending)
    | some ending =>
      rw [State.steps_of_ending? hending]

theorem reaches_interpret {m m' : Machine} {outcome : Except Fault (List (Option Value))}
    (h : m.interpret limit program = some (outcome, m')) (n : Nat) :
    ReflTransGen Next (.before m n program) (.between ⟨m', n⟩) := by
  induction program generalizing m m' outcome with
  | nil =>
    cases h
    exact .refl
  | cons x rest ih =>
    rw [Machine.interpret] at h
    cases hone : m.interpretOne limit x with
    | none =>
      rw [hone] at h
      cases h
    | some r =>
      obtain ⟨first, m₁⟩ := r
      obtain ⟨ending, hrun, hfault, hvalue⟩ := Machine.run_of_interpretOne hone
      obtain ⟨hending, rfl⟩ := State.steps_of_run hrun
      have hsteps := reaches_steps (x.begins m) rest n limit
      rw [hone] at h
      cases first with
      | error f =>
        cases h
        refine hsteps.tail (.failed hending ?_)
        rcases hfault f rfl with rfl | ⟨y, rfl, hy⟩
        · rfl
        · cases y <;> first | rfl | cases hy
      | ok v =>
        have hrest := hsteps.tail (.done hending (hvalue v rfl))
        dsimp only at h
        split at h
        · cases h
        · next hmore =>
          cases h
          exact hrest.trans (ih hmore)

theorem reaches_run {result : Except Diagnostic (List (Option Value))}
    (h : s.run limit source = some (result, s')) :
    ReflTransGen Next (.between s) (.between s') := by
  unfold run at h
  cases hparse : s.parse source with
  | mk outcome s₁ =>
    rw [hparse] at h
    cases outcome with
    | error d =>
      cases h
      exact .single (.unread hparse)
    | ok program =>
      dsimp only at h
      cases hresolve : s₁.resolve program with
      | mk outcome s₂ =>
        rw [hresolve] at h
        cases outcome with
        | error d =>
          cases h
          exact .single (.rejected hparse hresolve)
        | ok _ =>
          have haccept : s.accept? source = some (program, s₂) := by
            simp only [accept?, hparse, hresolve]
          dsimp only at h
          unfold interpret at h
          split at h
          · cases h
          · next hi =>
            cases h
            exact (reaches_interpret hi s₂.nextReference).head (.accepted haccept)

/-- The session leads from its start to the stage. -/
def Reached (time : Float) (c : Stage) : Prop :=
  ReflTransGen Next (.between (start time)) c

theorem Reachable.reached {time : Float} (h : Reachable time s) : Reached time (.between s) := by
  induction h with
  | start => exact .refl
  | run _ hr ih => exact ih.trans (reaches_run hr)

/-! ### What holds at every stage -/

/-- What holds of a machine between units and while they run. -/
structure Orderly (W : World) (m : Machine) (n : Nat) : Prop where
  fits : Session.Fits W ⟨{ m with scope := 0 }, n⟩
  programs : ∀ program ∈ W.programs, stmtsSpelled Token.Worded program
  spelled : m.heap.Spelled Token.Worded
  sound : m.heap.Sound
  /-- Nothing is around the global scope, and there is no `this` in it. -/
  root : Scopes.root.Keeps m.heap.scopes
  /-- Where there is a `this`, a method was bound. -/
  bound : ∀ e v, m.heap.scopes.here? e "this" = some v → ∃ decl, W.log[e]? = some (.bound decl)

/-- What holds while a statement runs. -/
structure Underway (W : World) (st : State) (rest : List Stmt) (n : Nat) : Prop
    extends Orderly W st.machine n where
  state : st.Fits W
  wording : st.Spelled Token.Worded
  values : st.Sound
  housed : st.Housed
  unwound : st.unwound.scope = 0
  known : ∀ x ∈ rest, W.Knows (.stmt x) .top
  worded : stmtsSpelled Token.Worded rest

def Stage.Orderly (W : World) : Stage → Prop
  | .between s => Session.Orderly W s.machine s.nextReference ∧ s.machine.scope = 0
  | .running st rest n => Underway W st rest n

variable {W : World} {m : Machine} {st : State} {c c' : Stage}

theorem Stage.Orderly.machine (h : c.Orderly W) : ∃ n, Session.Orderly W c.machine n := by
  cases c with
  | between s => exact ⟨_, h.1⟩
  | running st rest n => exact ⟨n, h.toOrderly⟩

theorem Orderly.session (h : Orderly W s.machine s.nextReference) (hscope : s.machine.scope = 0) :
    s.Fits W := by
  have hm : { s.machine with scope := 0 } = s.machine := by rw [← hscope]
  have hfits := h.fits
  rw [hm] at hfits
  exact hfits

theorem Orderly.of_fits (hfits : s.Fits W) (h : Orderly W m n) (hheap : s.machine.heap = m.heap) :
    Orderly W s.machine s.nextReference := by
  have hm : { s.machine with scope := 0 } = s.machine := by rw [← hfits.scope]
  refine ⟨?_, h.programs, ?_, ?_, ?_, ?_⟩
  · rw [hm]
    exact hfits
  · rw [hheap]
    exact h.spelled
  · rw [hheap]
    exact h.sound
  · rw [hheap]
    exact h.root
  · rw [hheap]
    exact h.bound

/-- The next statement begins. -/
theorem Orderly.before (h : Orderly W m n) (hscope : m.scope = 0)
    (hk : ∀ x ∈ rest, W.Knows (.stmt x) .top) (hw : stmtsSpelled Token.Worded rest) :
    (Stage.before m n rest).Orderly W := by
  cases rest with
  | nil => exact ⟨h, hscope⟩
  | cons x rest =>
    obtain ⟨hx, hrest⟩ := List.forall_mem_cons.1 hk
    have hmachine := x.machine_begins m
    have hstack := x.stack_begins m
    refine ⟨?_, Machine.fits_begins h.fits.heap hscope hx, hw.1.begins h.spelled,
      Machine.begins_sound h.sound x, .inl ?_, ?_, hrest, hw.2⟩
    · rw [hmachine]
      exact h
    · rw [hstack]
      exact .script
    · rw [State.unwound, hstack, hmachine]
      exact hscope

/-- A step is taken. -/
theorem Underway.step (h : Underway W st rest n) :
    Underway (W.extend st.opens) st.step rest n := by
  have hW := W.le_extend st.opens
  have hstep := State.fits_step h.fits.sound h.state
  have hadvances := h.wording.advances
  have hfixed := st.steps_fixed 1
  have hlog : W.log.length = st.machine.heap.scopes.nextScope := h.fits.heap.log
  have horderly : Orderly (W.extend st.opens) st.step.machine n := by
    refine ⟨⟨h.fits.sound, hstep.heap, hfixed.1.trans h.fits.globals, rfl, h.fits.references, ?_, ?_⟩,
      h.programs, h.wording.step.heap, h.values.step.sound.heap, h.root.trans hadvances.keeps, ?_⟩
    · intro r hr
      exact (congrArg (Distances.get? · r) hfixed.2).trans (h.fits.fresh r hr)
    · intro part p r name hv hown
      exact (congrArg (Distances.get? · r) hfixed.2).trans (h.fits.recorded part p r name hv hown)
    · intro e v hv
      rcases Nat.lt_or_ge e st.machine.heap.scopes.nextScope with hlt | hge
      · rw [hadvances.keeps.this e hlt] at hv
        obtain ⟨decl, hdecl⟩ := h.bound e v hv
        exact ⟨decl, getElem?_of_starts hW.log hdecl⟩
      · -- the scope is the first one of those that the step makes
        obtain ⟨rfl, decl, more, hmakes⟩ := hadvances.bound e v hge hv
        have hlt := Scopes.lt_of_here? hv
        obtain ⟨k, hk⟩ := Nat.exists_eq_succ_of_ne_zero (Nat.sub_ne_zero_of_lt hlt)
        have hopens : st.opens = .bound decl :: more.take k := by
          rw [State.opens, hmakes, hk, List.take_succ_cons]
        refine ⟨decl, ?_⟩
        rw [World.extend, hopens, ← hlog, List.getElem?_append_right (Nat.le_refl _), Nat.sub_self]
        rfl
  exact ⟨horderly, hstep, h.wording.step, h.values.step.sound, hadvances.housed h.housed,
    (congrArg Registers.scope st.unwound_step).trans h.unwound,
    fun x hx => (h.known x hx).mono hW, h.worded⟩

theorem machine_accept (h : s.accept? source = some (program, s')) :
    s'.machine.heap = s.machine.heap ∧ s'.machine.scope = s.machine.scope := by
  obtain ⟨s₁, hp, hr⟩ := accept?_eq h
  have hresolve := resolve_eq program s₁
  rw [hr, (parse_ok hp).1] at hresolve
  exact ⟨congrArg (·.machine.heap) hresolve, congrArg (·.machine.scope) hresolve⟩

/-- A unit is accepted. -/
theorem Orderly.accept (h : Orderly W s.machine s.nextReference) (hscope : s.machine.scope = 0)
    (ha : s.accept? source = some (program, s')) :
    (Stage.before s'.machine s'.nextReference program).Orderly
      ⟨W.programs ++ [program], W.log⟩ := by
  obtain ⟨hheap, hscope'⟩ := machine_accept ha
  obtain ⟨s₁, hp, -⟩ := accept?_eq ha
  have hfits := (h.session hscope).accept ha
  have hwords := worded_of_parse hp
  have hprogram : program ∈ (⟨W.programs ++ [program], W.log⟩ : World).programs :=
    List.mem_append_right _ (List.mem_singleton_self _)
  have hold : Orderly ⟨W.programs ++ [program], W.log⟩ s'.machine s'.nextReference := by
    have hm : { s'.machine with scope := 0 } = s'.machine := by rw [← hfits.scope]
    refine ⟨?_, ?_, ?_, ?_, ?_, ?_⟩
    · rw [hm]
      exact hfits
    · exact List.forall_mem_append.2 ⟨h.programs, List.forall_mem_singleton.2 hwords⟩
    · rw [hheap]
      exact h.spelled
    · rw [hheap]
      exact h.sound
    · rw [hheap]
      exact h.root
    · rw [hheap]
      exact h.bound
  exact hold.before (hscope'.trans hscope) (knows_program hprogram) hwords

/-- What holds at a stage holds at the next one. -/
theorem Next.orderly (h : Next c c') (hc : c.Orderly W) : ∃ W', W.Le W' ∧ c'.Orderly W' := by
  cases h with
  | @unread source s s' d hp =>
    obtain ⟨horderly, hscope⟩ := hc
    have hmachine := machine_parse source s
    have hfits := (horderly.session hscope).parse source
    rw [hp] at hmachine hfits
    exact ⟨W, .refl W, .of_fits hfits horderly (congrArg Machine.heap hmachine), hfits.scope⟩
  | @rejected source s s₁ s' program d hp hr =>
    obtain ⟨horderly, hscope⟩ := hc
    have hfits := (horderly.session hscope).resolve hp
    have hresolve := resolve_eq program s₁
    rw [hr] at hfits hresolve
    have hheap : s'.machine.heap = s.machine.heap := by
      rw [congrArg (·.machine.heap) hresolve, ← (parse_ok hp).1]
    exact ⟨W, .refl W, .of_fits hfits horderly hheap, hfits.scope⟩
  | @accepted source s s' program ha =>
    obtain ⟨horderly, hscope⟩ := hc
    have hW : W.Le ⟨W.programs ++ [program], W.log⟩ :=
      ⟨fun _ hm => List.mem_append_left _ hm, List.prefix_refl _⟩
    exact ⟨_, hW, horderly.accept hscope ha⟩
  | step hrunning => exact ⟨_, W.le_extend _, Underway.step hc⟩
  | done hending hok =>
    have hscope := hc.unwound
    rw [State.unwound, State.stack_of_ending? hending] at hscope
    exact ⟨W, .refl W, hc.toOrderly.before hscope hc.known hc.worded⟩
  | failed hending hfails =>
    have hscope := hc.unwound
    rw [State.unwound, State.stack_of_ending? hending] at hscope
    exact ⟨W, .refl W, hc.toOrderly, hscope⟩

/-- From a stage to the next one the heap grows, and scopes keep their `this`. -/
theorem Next.keeps (h : Next c c') (hc : c.Orderly W) : c.machine.heap.Grows c'.machine.heap ∧
    c.machine.heap.scopes.Keeps c'.machine.heap.scopes := by
  have hsame (hheap : c'.machine.heap = c.machine.heap) :
      c.machine.heap.Grows c'.machine.heap ∧
        c.machine.heap.scopes.Keeps c'.machine.heap.scopes := by
    rw [hheap]
    exact ⟨.refl _, (Scopes.Spares.refl _).toKeeps⟩
  cases h with
  | @unread source s s' d hp =>
    have hmachine := machine_parse source s
    rw [hp] at hmachine
    exact hsame (congrArg Machine.heap hmachine)
  | @rejected source s s₁ s' program d hp hr =>
    have hresolve := resolve_eq program s₁
    rw [hr] at hresolve
    refine hsame ?_
    show s'.machine.heap = s.machine.heap
    rw [congrArg (·.machine.heap) hresolve, ← (parse_ok hp).1]
  | accepted ha =>
    refine hsame ?_
    rw [Stage.machine_before]
    exact (machine_accept ha).1
  | step hrunning => exact ⟨hc.values.step.grows, hc.wording.advances.keeps⟩
  | done hending hok =>
    refine hsame ?_
    rw [Stage.machine_before]
    rfl
  | failed hending hfails => exact hsame rfl

theorem orderly_start (time : Float) : (Stage.between (start time)).Orderly ⟨[], [.globals]⟩ := by
  have hspares : Scopes.root.Spares (start time).machine.heap.scopes := by
    refine Machine.initial_heap (P := fun h => Scopes.root.Spares h.scopes) time (.refl _) ?_
    intro h b hh
    refine hh.trans (Scopes.spares_define ?_ _ _ _)
    cases b <;> decide
  refine ⟨⟨fits_start time, nofun, Machine.spelled_initial time, sound_start time, hspares.toKeeps,
    fun e v hv => ?_⟩, rfl⟩
  have hnone : (start time).machine.heap.scopes.here? e "this" = none := by
    rcases Nat.lt_or_ge e Scopes.root.nextScope with hlt | hge
    · obtain rfl : e = 0 := Nat.lt_one_iff.1 hlt
      exact hspares.this 0 hlt
    · exact hspares.fresh e hge
  rw [hnone] at hv
  cases hv

theorem Reached.orderly {time : Float} (h : Reached time c) : ∃ W, c.Orderly W := by
  induction h with
  | refl => exact ⟨_, orderly_start time⟩
  | tail _ hnext ih =>
    obtain ⟨W, hc⟩ := ih
    obtain ⟨W', -, hc'⟩ := hnext.orderly hc
    exact ⟨W', hc'⟩

/-- Between two stages of a session the heap has grown, and scopes have kept their `this`. -/
theorem Reached.keeps {time : Float} (hc : Reached time c) (h : ReflTransGen Next c c') :
    c.machine.heap.Grows c'.machine.heap ∧
      c.machine.heap.scopes.Keeps c'.machine.heap.scopes := by
  induction h with
  | refl => exact ⟨.refl _, (Scopes.Spares.refl _).toKeeps⟩
  | tail hsteps hnext ih =>
    have hreached : Reached time _ := hc.trans hsteps
    obtain ⟨W, horderly⟩ := hreached.orderly
    obtain ⟨hgrows, hkeeps⟩ := hnext.keeps horderly
    exact ⟨ih.1.trans hgrows, ih.2.trans hkeeps⟩

end Session

end TreeWalk
