import TreeWalk.Proofs.Stepping
import TreeWalk.Proofs.Recording
import TreeWalk.Proofs.Unwind
import TreeWalk.Proofs.Program

/-!
# The history of a session

`Session.History time W s` says that units of source lead from the start to the session `s`, and what
has been seen on the way: the programs that were accepted, and what each scope was made for.
`Session.Moment time W st` says that some state of a run of one more program is `st`. Between units
and at every moment in between the machine fits what has been seen.
-/

namespace TreeWalk

/-! ### Runs -/

namespace State

def steps : (count : Nat) → State → State
  | 0, st => st
  | count + 1, st => steps count st.step

/-- What the scopes that the steps make stand for. -/
def sites : (count : Nat) → State → List Site
  | 0, _ => []
  | count + 1, st => st.opens ++ sites count st.step

variable {W : World} {st : State}

theorem fits_steps (hW : W.Sound) (h : st.Fits W) (count : Nat) :
    (st.steps count).Fits (W.extend (st.sites count)) := by
  induction count generalizing st W with
  | zero =>
    rw [sites, World.extend_nil]
    exact h
  | succ count ih =>
    rw [sites, ← World.extend_extend]
    exact ih hW (fits_step hW h)

theorem step_of_ending? {ending : Ending} (h : st.ending? = some ending) : st.step = st := by
  unfold ending? at h
  split at h
  · rfl
  · rfl
  · rfl
  · cases h

theorem steps_of_ending? {ending : Ending} (h : st.ending? = some ending) (count : Nat) :
    st.steps count = st := by
  induction count with
  | zero => rfl
  | succ count ih =>
    rw [steps, step_of_ending? h]
    exact ih

theorem steps_of_run {limit : Nat} {ending : Ending} {m : Machine}
    (h : st.run limit = some (ending, m)) :
    (st.steps limit).ending? = some ending ∧ (st.steps limit).machine = m := by
  induction limit generalizing st with
  | zero => cases h
  | succ limit ih =>
    rw [run] at h
    cases he : st.ending? with
    | none =>
      rw [he] at h
      exact ih h
    | some ending' =>
      rw [he] at h
      cases h
      rw [steps_of_ending? he]
      exact ⟨he, rfl⟩

theorem unwound_steps (st : State) (count : Nat) : (st.steps count).unwound = st.unwound := by
  induction count generalizing st with
  | zero => rfl
  | succ count ih => exact (ih st.step).trans st.unwound_step

theorem unwound_fixed (st : State) : st.unwound.globals = st.machine.globals ∧
    st.unwound.distances = st.machine.distances := by
  have hfixed : ∀ (stack : List Frame) (r : Registers),
      (unwind stack r).globals = r.globals ∧ (unwind stack r).distances = r.distances := by
    intro stack
    induction stack with
    | nil => exact fun r => ⟨rfl, rfl⟩
    | cons frame stack ih =>
      intro r
      rw [unwind_cons]
      cases frame <;> exact ih _
  exact hfixed st.stack st.machine.registers

/-- The global scope and the distances are the same throughout a run. -/
theorem steps_fixed (st : State) (count : Nat) :
    (st.steps count).machine.globals = st.machine.globals ∧
      (st.steps count).machine.distances = st.machine.distances := by
  obtain ⟨hg, hd⟩ := (st.steps count).unwound_fixed
  rw [unwound_steps] at hg hd
  exact ⟨hg.symm.trans st.unwound_fixed.1, hd.symm.trans st.unwound_fixed.2⟩

/-- A program ends with a fault that no stray signal can have caused. -/
theorem fault_of_fits {f : Fault} (h : st.Fits W) (he : st.ending? = some (.fault f)) :
    f.isLeak = false := by
  obtain ⟨focus, stack, m⟩ := st
  unfold ending? at he
  split at he <;> cases he
  next heq =>
    cases heq
    exact h.focus

/-- Outside of everything a statement ends normally. -/
theorem signal_of_fits {x : Signal} (h : st.Fits W) (he : st.ending? = some (.signal x)) :
    x = .normal := by
  obtain ⟨focus, stack, m⟩ := st
  unfold ending? at he
  split at he <;> cases he
  next heq =>
    cases heq
    obtain ⟨p, hx, -, hs⟩ | ⟨kind, -, hs⟩ := h.focus
    · cases hs with
      | top hloop hbody =>
        cases x with
        | normal => rfl
        | exitLoop | nextRound => exact absurd (hloop.symm.trans hx) Bool.false_ne_true
        | returned v => exact absurd hbody hx.1
    · cases hs

end State

/-! ### Programs -/

/-- Whether a statement that ends so is the last one of its program. -/
def Ending.fails : Ending → Bool
  | .value _ | .signal .normal => false
  | .signal _ | .fault _ => true

/-- The state in which a machine begins a statement of a program. -/
def Stmt.begins (m : Machine) : Stmt → State
  | .expression e => ⟨.evaluate e, [], m⟩
  | x => ⟨.execute x, [], m⟩

theorem Stmt.begins_of_ne {x : Stmt} (hx : ∀ e, x ≠ .expression e) (m : Machine) :
    x.begins m = ⟨.execute x, [], m⟩ := by
  cases x with
  | expression e => exact absurd rfl (hx e)
  | _ => rfl

theorem Stmt.machine_begins (x : Stmt) (m : Machine) : (x.begins m).machine = m := by
  cases x <;> rfl

theorem Stmt.stack_begins (x : Stmt) (m : Machine) : (x.begins m).stack = [] := by
  cases x <;> rfl

/-- What the scopes that a program makes stand for. -/
def Machine.sites (limit : Nat) : List Stmt → Machine → List Site
  | [], _ => []
  | x :: rest, m =>
    (x.begins m).sites limit ++
      match m.interpretOne limit x with
      | some (.ok _, m) => m.sites limit rest
      | _ => []

/-- Outside of all scopes nothing is marked. -/
theorem Stmt.after_of_scopes {c : Context} (h : c.scopes = []) (x : Stmt) : x.after c = c := by
  have hmark : ∀ (name : Token) (b : Bool), c.mark name b = c := Context.mark_nil h
  have hfold : ∀ g : Context → Token → Context, (∀ name, g c name = c) →
      ∀ names : List Token, names.foldl g c = c := by
    intro g hg names
    induction names with
    | nil => rfl
    | cons name names ih => rwa [List.foldl_cons, hg]
  have hintroduced : ∀ names, c.introduced names = c :=
    hfold _ fun name => by rw [hmark, Context.define, hmark]
  cases x with
  | block | expression | print | returning | breaking | continuing => rfl
  | var bindings =>
    rw [Stmt.after, Context.declared, hfold _ (hmark · false)]
    exact hfold _ (hmark · true) _
  | function decl => exact hintroduced _
  | classDecl name methods => exact hintroduced _
  | conditional condition whenTrue whenFalse =>
    cases whenFalse with
    | none => exact whenTrue.after_of_scopes h
    | some whenFalse =>
      rw [Stmt.after, whenTrue.after_of_scopes h]
      exact whenFalse.after_of_scopes h
  | loop condition body increment => exact body.after_of_scopes h

theorem Setting.top_after (x : Stmt) : Setting.top.after x = .top := by
  rw [Setting.after, x.after_of_scopes rfl]

theorem World.Knows.mem {W : World} {program : List Stmt} (h : W.Knows (.stmts program) .top) :
    ∀ x ∈ program, W.Knows (.stmt x) .top := by
  induction program with
  | nil => exact nofun
  | cons x rest ih =>
    have hx : W.Knows (.stmt x) .top := h.child (by simp [Part.children])
    have hrest : W.Knows (.stmts rest) (Setting.top.after x) := h.child (by simp [Part.children])
    rw [Setting.top_after] at hrest
    exact List.forall_mem_cons.2 ⟨hx, ih hrest⟩

namespace Machine

variable {W : World} {m m' : Machine} {limit : Nat}

theorem fits_begins {x : Stmt} (hh : W.HeapFits m.heap) (hscope : m.scope = 0)
    (hk : W.Knows (.stmt x) .top) : (x.begins m).Fits W := by
  have hat : W.At m.heap.scopes [] m.scope .top := by
    rw [hscope]
    exact .globals
  have htop : Waits W m.heap.scopes (.statement (Setting.top.after x)) m.scope [] := by
    rw [Setting.top_after]
    exact .top rfl rfl
  cases x with
  | expression e => exact ⟨hh, .top, hk.child (List.mem_singleton_self _), hat, .nothing⟩
  | _ => exact ⟨hh, .top, hk, hat, htop⟩

/-- A statement of a program is one run, which fails with a fault or with a stray signal. -/
theorem run_of_interpretOne {x : Stmt} {outcome : Except Fault (Option Value)}
    (h : m.interpretOne limit x = some (outcome, m')) :
    ∃ ending, (x.begins m).run limit = some (ending, m') ∧
      (∀ f, outcome = .error f →
        ending = .fault f ∨ ∃ y, ending = .signal y ∧ signalFault? x y = some f) ∧
      ∀ v, outcome = .ok v → ending.fails = false := by
  unfold interpretOne at h
  split at h
  · next e =>
    obtain ⟨⟨outcome', m''⟩, he, heq⟩ := Option.map_eq_some_iff.1 h
    cases heq
    refine ⟨_, run_of_evaluate he, fun f hf => .inl ?_, fun v hv => ?_⟩
    · cases outcome' with
      | ok v => cases hf
      | error f' =>
        cases hf
        rfl
    · cases outcome' with
      | ok v' => rfl
      | error f => cases hv
  · next hx =>
    rw [x.begins_of_ne hx]
    cases he : m.execute limit x with
    | none =>
      rw [he] at h
      cases h
    | some r =>
      obtain ⟨f | y, m₁⟩ := r
      · rw [he] at h
        cases h
        refine ⟨_, run_of_execute he, fun f' hf => .inl ?_, nofun⟩
        cases hf
        rfl
      · rw [he] at h
        dsimp only at h
        split at h
        · next f hy =>
          cases h
          refine ⟨_, run_of_execute he, fun f' hf => .inr ⟨y, rfl, ?_⟩, nofun⟩
          cases hf
          exact hy
        · next hy =>
          cases h
          refine ⟨_, run_of_execute he, nofun, fun _ _ => ?_⟩
          cases y with
          | normal => rfl
          | _ => cases hy

theorem fits_interpretOne (hW : W.Sound) {x : Stmt} {outcome : Except Fault (Option Value)}
    (hx : (x.begins m).Fits W) (h : m.interpretOne limit x = some (outcome, m')) :
    (W.extend ((x.begins m).sites limit)).HeapFits m'.heap ∧
      ∀ f, outcome = .error f → f.isLeak = false := by
  obtain ⟨ending, hrun, hfault, -⟩ := run_of_interpretOne h
  obtain ⟨hending, hmachine⟩ := State.steps_of_run hrun
  have hfits := State.fits_steps hW hx limit
  refine ⟨hmachine ▸ hfits.heap, fun f hf => ?_⟩
  rcases hfault f hf with rfl | ⟨y, rfl, hy⟩
  · exact State.fault_of_fits hfits hending
  · rw [State.signal_of_fits hfits hending] at hy
    cases hy

/-- A program that was accepted runs in a heap that fits, up to its end or its fault. -/
theorem fits_interpret (hW : W.Sound) {program : List Stmt}
    {outcome : Except Fault (List (Option Value))} (hh : W.HeapFits m.heap) (hscope : m.scope = 0)
    (hk : ∀ x ∈ program, W.Knows (.stmt x) .top)
    (h : m.interpret limit program = some (outcome, m')) :
    (W.extend (m.sites limit program)).HeapFits m'.heap ∧
      ∀ f, outcome = .error f → f.isLeak = false := by
  induction program generalizing m W outcome with
  | nil =>
    cases h
    rw [sites, World.extend_nil]
    exact ⟨hh, nofun⟩
  | cons x rest ih =>
    obtain ⟨hx, hrest⟩ := List.forall_mem_cons.1 hk
    have hbegins := fits_begins hh hscope hx
    rw [interpret] at h
    rw [sites]
    cases hone : m.interpretOne limit x with
    | none =>
      rw [hone] at h
      cases h
    | some r =>
      obtain ⟨f | v, m₁⟩ := r
      · rw [hone] at h
        cases h
        obtain ⟨hheap, hf⟩ := fits_interpretOne hW hbegins hone
        rw [List.append_nil]
        exact ⟨hheap, fun f' hf' => hf f' (by cases hf'; rfl)⟩
      · rw [hone] at h
        obtain ⟨hheap, -⟩ := fits_interpretOne hW hbegins hone
        have hscope₁ : m₁.scope = 0 :=
          (congrArg Registers.scope (registers_of_interpretOne hone)).trans hscope
        dsimp only at h ⊢
        split at h
        · cases h
        · next outcome₁ m₂ hi =>
          cases h
          obtain ⟨hheap', hf⟩ := ih (W := W.extend _) hW hheap hscope₁
            (fun y hy => (hrest y hy).mono (W.le_extend _)) hi
          rw [← World.extend_extend]
          refine ⟨hheap', fun f hf' => hf f ?_⟩
          cases outcome₁ with
          | error f' =>
            cases hf'
            rfl
          | ok vs => cases hf'

end Machine

/-! ### Sessions -/

namespace Session

/-- The program of a unit that is read and accepted, and the session in which it runs. -/
def accept? (source : List UInt8) (s : Session) : Option (List Stmt × Session) :=
  match s.parse source with
  | (.error _, _) => none
  | (.ok program, s) =>
    match s.resolve program with
    | (.error _, _) => none
    | (.ok (), s) => some (program, s)

/-- What has been seen once a unit has run. -/
def seen (limit : Nat) (source : List UInt8) (s : Session) (W : World) : World :=
  match s.accept? source with
  | none => W
  | some (program, s) => ⟨W.programs ++ [program], W.log ++ s.machine.sites limit program⟩

/-- The sessions that units of source lead to, and what has been seen on the way. -/
inductive History (time : Float) : World → Session → Prop
  | start : History time ⟨[], [.globals]⟩ (start time)
  | run {limit : Nat} {source : List UInt8} {s s' : Session} {W : World}
      {result : Except Diagnostic (List (Option Value))} (hs : History time W s)
      (h : s.run limit source = some (result, s')) : History time (s.seen limit source W) s'

/-- The states that a session passes through: a unit is accepted, its first statements have run, and
the next one has begun some steps ago. -/
inductive Moment (time : Float) : World → State → Prop
  | mk {source : List UInt8} {s s' : Session} {W : World} {before after : List Stmt} {x : Stmt}
      {limit : Nat} {values : List (Option Value)} {m : Machine} (hs : History time W s)
      (haccept : s.accept? source = some (before ++ x :: after, s'))
      (hbefore : s'.machine.interpret limit before = some (.ok values, m)) (count : Nat) :
      Moment time
        ⟨W.programs ++ [before ++ x :: after],
          W.log ++ s'.machine.sites limit before ++ (x.begins m).sites count⟩
        ((x.begins m).steps count)

theorem Moment.first {time : Float} {source : List UInt8} {s s' : Session} {W : World} {x : Stmt}
    {after : List Stmt} (hs : History time W s) (h : s.accept? source = some (x :: after, s'))
    (count : Nat) : ∃ W, Moment time W ((x.begins s'.machine).steps count) := by
  have haccept : s.accept? source = some ([] ++ x :: after, s') := h
  have hbefore : s'.machine.interpret 0 [] = some (.ok [], s'.machine) := rfl
  exact ⟨_, .mk hs haccept hbefore count⟩

/-- Every reference of an accepted program has the distance that its name had in the walk. -/
def Recorded (W : World) (d : Distances) : Prop :=
  ∀ part p r name, W.Visited part p → part.own? = some (r, name) →
    d.get? r = p.context.distance? name.lexeme

/-- What holds between units. -/
structure Fits (W : World) (s : Session) : Prop where
  sound : W.Sound
  heap : W.HeapFits s.machine.heap
  globals : s.machine.globals = 0
  scope : s.machine.scope = 0
  references : Between 0 (W.programs.flatMap referencesStmts) s.nextReference
  fresh : ∀ r, s.nextReference ≤ r → s.machine.distances.get? r = none
  recorded : Recorded W s.machine.distances

variable {W : World} {s s' : Session} {source : List UInt8} {program : List Stmt}

theorem own_mem_references {part : Part} {p : Setting} {r : Nat} {name : Token}
    (h : W.Visited part p) (hown : part.own? = some (r, name)) :
    r ∈ W.programs.flatMap referencesStmts := by
  obtain ⟨program, hm, hv⟩ := h
  have hr : r ∈ part.references := (part.references_perm p).mem_iff.2 (by simp [hown])
  exact List.mem_flatMap.2 ⟨program, hm, hv.references_subset hr⟩

/-- References are given out and distances recorded under them, and nothing else changes. -/
theorem Fits.touch {refs : List Nat} {next : Nat} {d : Distances} (h : s.Fits W)
    (hrefs : Between s.nextReference refs next)
    (hd : ∀ r, r ∉ refs → d.get? r = s.machine.distances.get? r) :
    Session.Fits W ⟨{ s.machine with distances := d }, next⟩ := by
  refine ⟨h.sound, h.heap, h.globals, h.scope, ?_, fun r hr => ?_, ?_⟩
  · have hall := h.references.append (.none hrefs.le)
    rwa [List.append_nil] at hall
  · rw [hd r fun hm => Nat.not_lt_of_le hr (hrefs.bounds r hm).2]
    exact h.fresh r (Nat.le_trans hrefs.le hr)
  · intro part p r name hv hown
    have hlt := (h.references.bounds r (own_mem_references hv hown)).2
    rw [hd r fun hm => Nat.not_lt_of_le (hrefs.bounds r hm).1 hlt]
    exact h.recorded part p r name hv hown

theorem Fits.parse (h : s.Fits W) (source : List UInt8) : (s.parse source).2.Fits W := by
  unfold Session.parse
  split
  · exact h
  · next tokens _ =>
    have hle := le_parseProgram tokens s.nextReference
    split
    · next heq =>
      rw [heq] at hle
      exact h.touch (.none hle) fun _ _ => rfl
    · next heq =>
      rw [heq] at hle
      exact h.touch (.none hle) fun _ _ => rfl

theorem parse_ok (h : s.parse source = (.ok program, s')) :
    s'.machine = s.machine ∧ stmtsFormed false program ∧
      Between s.nextReference (referencesStmts program) s'.nextReference := by
  unfold Session.parse at h
  split at h
  · cases h
  · next tokens _ =>
    split at h
    · cases h
    · next heq =>
      cases h
      have hok : (parseProgram tokens s.nextReference).1 = .ok program := by rw [heq]
      have hrefs := references_of_parseProgram hok
      rw [heq] at hrefs
      exact ⟨rfl, stmtsFormed_of_parseProgram hok, hrefs⟩

theorem resolve_eq (program : List Stmt) (s : Session) :
    (s.resolve program).2 = ⟨{ s.machine with
      distances := (resolveProgram program s.machine.distances).distances }, s.nextReference⟩ := by
  unfold Session.resolve
  split
  · next heq => rw [heq]; rfl
  · next heq => rw [heq]; rfl

theorem Fits.resolve {s₁ : Session} (h : s.Fits W) (hp : s.parse source = (.ok program, s₁)) :
    (s₁.resolve program).2.Fits W := by
  obtain ⟨hm, -, hrefs⟩ := parse_ok hp
  rw [resolve_eq, hm]
  exact h.touch hrefs ((Part.stmts program).touches .top s.machine.distances)

theorem accept?_eq (h : s.accept? source = some (program, s')) :
    ∃ s₁, s.parse source = (.ok program, s₁) ∧ s₁.resolve program = (.ok (), s') := by
  unfold accept? at h
  split at h
  · cases h
  · next program' s₁ hp =>
    split at h
    · cases h
    · next hr =>
      cases h
      exact ⟨s₁, hp, hr⟩

/-- A program that is accepted joins those before it. -/
theorem Fits.accept (h : s.Fits W) (ha : s.accept? source = some (program, s')) :
    s'.Fits ⟨W.programs ++ [program], W.log⟩ := by
  obtain ⟨s₁, hp, hr⟩ := accept?_eq ha
  obtain ⟨hm, hformed, hrefs⟩ := parse_ok hp
  have hold : s'.Fits W := by
    have hfits := h.resolve hp
    rwa [hr] at hfits
  have hpassed : (Part.stmts program).resolve Setting.top.context s.machine.distances =
      .passed () s'.machine.distances := by
    unfold Session.resolve at hr
    rw [hm] at hr
    split at hr
    · cases hr
    · next heq => cases hr; exact heq
  have hnext : s'.nextReference = s₁.nextReference := by
    have heq := congrArg nextReference (resolve_eq program s₁)
    rwa [hr] at heq
  have hW : W.Le ⟨W.programs ++ [program], W.log⟩ :=
    ⟨fun _ hx => List.mem_append_left _ hx, List.prefix_refl _⟩
  refine ⟨?_, ?_, hold.globals, hold.scope, ?_, hold.fresh, ?_⟩
  · intro program' hm'
    rcases List.mem_append.1 hm' with hm' | hm'
    · exact hold.sound program' hm'
    · rw [List.mem_singleton.1 hm']
      exact ⟨⟨_, _, hpassed⟩, hformed⟩
  · exact hold.heap.scopes hW (.refl _) hold.heap.log
  · have hall := h.references.append hrefs
    rw [hnext, List.flatMap_append, List.flatMap_singleton]
    exact hall
  · rintro part p r name ⟨program', hm', hv⟩ hown
    rcases List.mem_append.1 hm' with hm' | hm'
    · exact hold.recorded part p r name ⟨program', hm', hv⟩ hown
    · cases List.mem_singleton.1 hm'
      have hr' : r ∈ referencesStmts program :=
        hv.references_subset ((part.references_perm p).mem_iff.2 (by simp [hown]))
      have hnodup : (Part.stmts program).references.Nodup := hrefs.nodup
      rw [hv.recorded hnodup hpassed hown, h.fresh r (hrefs.bounds r hr').1, Option.or_none]

theorem parse_error {d : Diagnostic} (h : s.parse source = (.error d, s')) (f : Fault) :
    d ≠ .runtime f := by
  unfold Session.parse at h
  split at h
  · cases h
    exact nofun
  · split at h
    · cases h
      exact nofun
    · cases h

theorem resolve_error {d : Diagnostic} (h : s.resolve program = (.error d, s')) (f : Fault) :
    d ≠ .runtime f := by
  unfold Session.resolve at h
  split at h
  · cases h
    exact nofun
  · cases h

theorem Fits.interpret {limit : Nat} {m : Machine} {outcome : Except Fault (List (Option Value))}
    {before : List Stmt} (h : s.Fits W) (hk : ∀ x ∈ before, W.Knows (.stmt x) .top)
    (hi : s.machine.interpret limit before = some (outcome, m)) :
    Session.Fits (W.extend (s.machine.sites limit before)) ⟨m, s.nextReference⟩ ∧
      ∀ f, outcome = .error f → f.isLeak = false := by
  obtain ⟨hheap, hf⟩ := Machine.fits_interpret h.sound h.heap h.scope hk hi
  have hr := Machine.registers_of_interpret hi
  have hdistances : m.distances = s.machine.distances := congrArg Registers.distances hr
  refine ⟨⟨h.sound, hheap, (congrArg Registers.globals hr).trans h.globals,
    (congrArg Registers.scope hr).trans h.scope, h.references, ?_, ?_⟩, hf⟩
  · rw [hdistances]
    exact h.fresh
  · rw [hdistances]
    exact h.recorded

theorem knows_program {W : World} (hm : program ∈ W.programs) :
    ∀ x ∈ program, W.Knows (.stmt x) .top :=
  World.Knows.mem fun _ _ hv _ => ⟨program, hm, hv⟩

/-- A unit keeps what holds between units, and no stray signal ends it. -/
theorem Fits.run {limit : Nat} {result : Except Diagnostic (List (Option Value))} (h : s.Fits W)
    (hr : s.run limit source = some (result, s')) :
    s'.Fits (s.seen limit source W) ∧
      ∀ f, result = .error (.runtime f) → f.isLeak = false := by
  have hparse := h.parse source
  unfold Session.run at hr
  unfold seen accept?
  cases hp : s.parse source with
  | mk outcome s₁ =>
    rw [hp] at hr hparse
    cases outcome with
    | error d =>
      cases hr
      exact ⟨hparse, fun f hf => absurd (Except.error.inj hf) (parse_error hp f)⟩
    | ok program =>
      have hresolve := h.resolve hp
      dsimp only at hr ⊢
      cases hv : s₁.resolve program with
      | mk outcome s₂ =>
        rw [hv] at hr hresolve
        cases outcome with
        | error d =>
          cases hr
          exact ⟨hresolve, fun f hf => absurd (Except.error.inj hf) (resolve_error hv f)⟩
        | ok _ =>
          have haccept : s.accept? source = some (program, s₂) := by
            simp only [accept?, hp, hv]
          have hfits := h.accept haccept
          dsimp only at hr ⊢
          unfold Session.interpret at hr
          split at hr
          · cases hr
          · next outcome m hi =>
            cases hr
            have hm : program ∈ (⟨W.programs ++ [program], W.log⟩ : World).programs :=
              List.mem_append_right _ (List.mem_singleton_self _)
            obtain ⟨hafter, hf⟩ := hfits.interpret (knows_program hm) hi
            refine ⟨hafter, fun f hf' => hf f ?_⟩
            cases outcome with
            | error f' => cases hf'; rfl
            | ok values => cases hf'

theorem fits_start (time : Float) : (start time).Fits ⟨[], [.globals]⟩ := by
  have hempty : World.HeapFits ⟨[], [.globals]⟩ Heap.empty := by
    refine ⟨rfl, fun r => World.FunctionFits.plain (p := .top) ?_ .globals, nofun⟩
    -- a function that was never made has no body
    intro part p hv hn
    cases hv with
    | here => cases hn
    | inside hc _ => cases hc
  have hheap := Machine.initial_heap (P := World.HeapFits ⟨[], [.globals]⟩) time hempty
    fun h b hh => hh.define 0 b.name (.builtin b)
  refine ⟨nofun, hheap, rfl, rfl, .none (Nat.le_refl 0), fun r _ => ?_, ?_⟩
  · exact Distances.get?_empty r
  · rintro part p r name ⟨program, hm, -⟩
    cases hm

theorem History.fits {time : Float} (h : History time W s) : s.Fits W := by
  induction h with
  | start => exact fits_start time
  | run _ hr ih => exact (ih.run hr).1

theorem Reachable.history {time : Float} (h : Reachable time s) : ∃ W, History time W s := by
  induction h with
  | start => exact ⟨_, .start⟩
  | run _ hr ih =>
    obtain ⟨W, hs⟩ := ih
    exact ⟨_, hs.run hr⟩

/-- What holds at every moment. -/
structure Holds (W : World) (st : State) : Prop where
  sound : W.Sound
  fits : st.Fits W
  globals : st.machine.globals = 0
  references : (W.programs.flatMap referencesStmts).Nodup
  recorded : Recorded W st.machine.distances

theorem Moment.holds {time : Float} {st : State} (h : Moment time W st) : Holds W st := by
  cases h with
  | @mk source s s' W before after x limit values m hs haccept hbefore count =>
    have hknows : ∀ y ∈ before ++ x :: after,
        World.Knows ⟨W.programs ++ [before ++ x :: after], W.log⟩ (.stmt y) .top :=
      knows_program (List.mem_append_right _ (List.mem_singleton_self _))
    obtain ⟨hfits, -⟩ := (hs.fits.accept haccept).interpret
      (fun y hy => hknows y (List.mem_append_left _ hy)) hbefore
    have hx := (hknows x (by simp)).mono (World.le_extend _ (s'.machine.sites limit before))
    have hbegins := Machine.fits_begins hfits.heap hfits.scope hx
    have hmachine := x.machine_begins m
    obtain ⟨hglobals, hdistances⟩ := (x.begins m).steps_fixed count
    rw [hmachine] at hglobals hdistances
    refine ⟨hfits.sound, State.fits_steps hfits.sound hbegins count,
      hglobals.trans hfits.globals, hfits.references.nodup, ?_⟩
    rw [hdistances]
    exact hfits.recorded

end Session

end TreeWalk
