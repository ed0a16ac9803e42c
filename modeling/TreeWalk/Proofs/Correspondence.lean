import TreeWalk.Proofs.History

/-!
# The machine keeps to the walk

Whatever a machine attends to in the course of a session, it does so in scopes that are those in
which the walk has seen it (`World.Tracks`), so a distance leads to the scope in which the walk has
found the name. And a signal goes no further than the walk and the grammar let it: to the end of a
loop or of a function.
-/

namespace TreeWalk

namespace World

/-- The scopes of the machine are those of the setting: as many steps out as the setting has scopes
lie the globals, and each scope on the way was made for its counterpart and holds the names that are
marked there. -/
structure Mirrors (W : World) (m : Machine) (p : Setting) : Prop where
  globals : m.heap.scopes.ancestor? p.context.scopes.length m.scope = some m.globals
  scopes : ∀ i scope, p.context.scopes[i]? = some scope → ∃ e site,
    m.heap.scopes.ancestor? i m.scope = some e ∧ p.sites[i]? = some site ∧ W.log[e]? = some site ∧
      ∀ x, scope.get? x = some true → m.heap.scopes.binds e x

/-- The distance of a reference is that of its name in the setting. It leads to the scope made for
the one with the name, and once the name is marked, there is a value to read or to replace. -/
structure Locates (W : World) (m : Machine) (p : Setting) (reference : Nat) (name : Token) :
    Prop where
  distance : m.distances.get? reference = p.context.distance? name.lexeme
  lands : ∀ d, m.distances.get? reference = some d → ∃ scope e site,
    p.context.scopes[d]? = some scope ∧ scope.contains name.lexeme ∧
      m.heap.scopes.ancestor? d m.scope = some e ∧ p.sites[d]? = some site ∧
      W.log[e]? = some site ∧
      (scope.get? name.lexeme = some true → m.holder? reference name = some e ∧
        ∃ v, m.heap.scopes.here? e name.lexeme = some v ∧ m.lookUp reference name = .ok v)

/-- The machine is where the walk was when it visited the part and let it pass. A part with references
was visited in one setting only. -/
structure Tracks (W : World) (m : Machine) (part : Part) (p : Setting) : Prop where
  visited : W.Visited part p
  passes : Passes part p
  only : part.references ≠ [] → ∀ q, W.Visited part q → q = p
  mirrors : W.Mirrors m p
  locates : ∀ reference name, part.own? = some (reference, name) → W.Locates m p reference name

variable {W : World} {m : Machine} {p q : Setting} {part : Part}

theorem At.mirrors (h : W.At m.heap.scopes [] m.scope p) (hg : m.globals = 0) : W.Mirrors m p := by
  refine ⟨?_, fun i scope hi => ?_⟩
  · rw [hg]
    exact Chain.ancestor_globals h
  · obtain ⟨e, site, ha, hsite, hlog, hbinds⟩ := Chain.ancestor h hi
    exact ⟨e, site, ha, hsite, hlog, hbinds⟩

theorem Mirrors.locates {reference : Nat} {name : Token} (h : W.Mirrors m p)
    (hd : m.distances.get? reference = p.context.distance? name.lexeme) :
    W.Locates m p reference name := by
  refine ⟨hd, fun d hdist => ?_⟩
  obtain ⟨hlt, hcontains, -⟩ := List.findIdx?_eq_some_iff_getElem.1 (hd.symm.trans hdist)
  have hscope := List.getElem?_eq_getElem hlt
  obtain ⟨e, site, ha, hsite, hlog, hbinds⟩ := h.scopes d _ hscope
  refine ⟨_, e, site, hscope, hcontains, ha, hsite, hlog, fun hmarked => ⟨?_, ?_⟩⟩
  · rw [Machine.holder?, hdist]
    simp only [Scopes.holderAt?, ha, hbinds _ hmarked, if_pos]
  · obtain ⟨v, hv⟩ := Option.isSome_iff_exists.1 (hbinds _ hmarked)
    refine ⟨v, hv, ?_⟩
    simp only [Machine.lookUp, hdist, Scopes.getAt?, ha, Scopes.here?, hv]

/-- No two programs of a session share a reference. -/
theorem Visited.setting_unique (hn : (W.programs.flatMap referencesStmts).Nodup)
    (hr : part.references ≠ []) (hp : W.Visited part p) (hq : W.Visited part q) : q = p := by
  obtain ⟨r, hr⟩ := List.exists_mem_of_ne_nil _ hr
  obtain ⟨program, hm, hp⟩ := hp
  obtain ⟨program', hm', hq⟩ := hq
  -- the programs are parts too, one beside the other
  have hparts : (referencesParts (W.programs.map fun ss => (.stmts ss, .top))).Nodup := by
    rw [referencesParts, List.flatMap_map]
    exact hn
  have hm := List.mem_map_of_mem (f := fun ss => (Part.stmts ss, Setting.top)) hm
  have hm' := List.mem_map_of_mem (f := fun ss => (Part.stmts ss, Setting.top)) hm'
  cases eq_of_mem_references hparts hm hm' (hp.references_subset hr) (hq.references_subset hr)
  exact hq.setting_unique (nodup_of_mem_parts hparts hm) hr hp

end World

/-! ### Moments -/

namespace Session.Holds

variable {W : World} {st : State} {p : Setting} {part : Part}

theorem tracks (h : Holds W st) (hv : W.Visited part p)
    (hat : W.At st.machine.heap.scopes [] st.machine.scope p) : W.Tracks st.machine part p := by
  have hmirrors := hat.mirrors h.globals
  refine ⟨hv, hv.passes h.sound, fun hr q hq => hv.setting_unique h.references hr hq, hmirrors, ?_⟩
  intro reference name hown
  exact hmirrors.locates (h.recorded part p reference name hv hown)

end Session.Holds

/-- At every moment of a session, when the machine evaluates an expression, executes a statement or
is about to carry out an assignment, its scopes are those in which the walk visited that, and the
distance of a reference leads to the scope in which the walk found the name. -/
theorem scopes_mirror_walk {time : Float} {W : World} {st : State}
    (h : Session.Moment time W st) :
    (∀ e stack m, st = ⟨.evaluate e, stack, m⟩ → ∃ p, W.Tracks m (.expr e) p) ∧
    (∀ x stack m, st = ⟨.execute x, stack, m⟩ → ∃ p, W.Tracks m (.stmt x) p) ∧
    (∀ v reference name stack m, st = ⟨.value v, .assign reference name :: stack, m⟩ →
      ∃ value p, W.Tracks m (.expr (.assign reference name value)) p) := by
  have hholds := h.holds
  refine ⟨?_, ?_, ?_⟩
  · rintro e stack m rfl
    obtain ⟨p, hk, hat, -⟩ := hholds.fits.focus
    exact ⟨p, hholds.tracks (hk.visited rfl) hat⟩
  · rintro x stack m rfl
    obtain ⟨p, hk, hat, -⟩ := hholds.fits.focus
    exact ⟨p, hholds.tracks (hk.visited rfl) hat⟩
  · rintro v reference name stack m rfl
    have hs : Waits W m.heap.scopes .value m.scope (.assign reference name :: stack) :=
      hholds.fits.focus
    cases hs with
    | @assign p e reference name value stack hv hat hs => exact ⟨value, p, hholds.tracks hv hat⟩
    | operands hf => cases hf
    | finish hf => rcases hf with hf | hf <;> cases hf

/-- The distance of the variable that the machine is about to read. -/
def State.distance? : State → Option Nat
  | ⟨.evaluate (.variable reference _), _, m⟩ => m.distances.get? reference
  | _ => none

/-- A function that keeps a variable of the function around it. -/
def counterUnit : List UInt8 :=
  "fun make(a) \x7b var b = a; return fun () \x7b b = b + 1; return b; \x7d; \x7d var f = make(1);"
    |>.toUTF8.toList

/-- A later unit calls the function: the variable is two scopes out, where the walk found it. -/
theorem scopes_mirror_walk_in_closure :
    ∃ W reference name stack m p,
      Session.Moment 0 W ⟨.evaluate (.variable reference name), stack, m⟩ ∧
      m.distances.get? reference = some 2 ∧ W.Tracks m (.expr (.variable reference name)) p := by
  have h : (((Session.start 0).run 99 counterUnit).bind fun r =>
      (r.2.accept? "f();".toUTF8.toList).bind fun a =>
      a.1.head?.bind fun x => ((x.begins a.2.machine).steps 7).distance?) = some 2 := by
    decide +kernel
  obtain ⟨⟨result, s⟩, hrun, h⟩ := Option.bind_eq_some_iff.1 h
  obtain ⟨⟨program, s'⟩, haccept, h⟩ := Option.bind_eq_some_iff.1 h
  obtain ⟨x, hx, h⟩ := Option.bind_eq_some_iff.1 h
  obtain ⟨after, rfl⟩ := List.head?_eq_some_iff.1 hx
  obtain ⟨W, hmoment⟩ := Session.Moment.first (.run .start hrun) haccept 7
  unfold State.distance? at h
  split at h
  · next reference name stack m hst =>
    rw [hst] at hmoment
    obtain ⟨p, hp⟩ := (scopes_mirror_walk hmoment).1 _ _ _ rfl
    exact ⟨W, reference, name, stack, m, p, hmoment, h, hp⟩
  · cases h

/-- No unit of a session fails because of a stray signal. The body of a function ends normally or
with `return`, and that of an initializer returns nothing. -/
theorem signals_stay_inside (time : Float) :
    (∀ s limit source cause line trace s', Session.Reachable time s →
      s.run limit source = some (.error (.runtime (.runtime cause line trace)), s') →
      cause ≠ .returnAtTopLevel ∧ cause ≠ .jumpAtTopLevel) ∧
    (∀ W x f stack m, Session.Moment time W ⟨.signal x, .body f :: stack, m⟩ →
      (x = .normal ∨ ∃ v, x = .returned v) ∧
      (f.isInitializer → x = .normal ∨ x = .returned .nil)) := by
  refine ⟨?_, ?_⟩
  · intro s limit source cause line trace s' hs hr
    obtain ⟨W, hs⟩ := hs.history
    have hleak := (hs.fits.run hr).2 _ rfl
    constructor
    · rintro rfl
      cases hleak
    · rintro rfl
      cases hleak
  · intro W x f stack m h
    obtain ⟨p, -, -, hs⟩ | ⟨kind, hx, hs⟩ := h.holds.fits.focus
    · cases hs
    · cases hs with
      | body hkind hinit hs =>
        cases x with
        | normal => exact ⟨.inl rfl, fun _ => .inl rfl⟩
        | exitLoop | nextRound => cases hx
        | returned v =>
          refine ⟨.inr ⟨v, rfl⟩, fun hi => .inr ?_⟩
          rw [hx (hinit hi)]

/-- Whether the body of an initializer has ended with `return` and no value. -/
def State.endsInitializer : State → Bool
  | ⟨.signal (.returned .nil), .body f :: _, _⟩ => f.isInitializer
  | _ => false

def failure? {α : Type} : Except Diagnostic α → Option Diagnostic
  | .ok _ => none
  | .error d => some d

/-- A class whose initializer returns from inside of a loop. -/
def initializerUnit : List UInt8 :=
  "class A \x7b init() \x7b while (true) \x7b return; \x7d \x7d \x7d".toUTF8.toList

/-- The body of the initializer ends with `return` and no value; then the unit fails, because what
was made cannot be called. -/
theorem signals_stay_inside_initializer :
    ∃ s s' W f stack m cause line trace,
      Session.Reachable 0 s ∧
      Session.Moment 0 W ⟨.signal (.returned .nil), .body f :: stack, m⟩ ∧ f.isInitializer ∧
      (Signal.returned .nil = .normal ∨ Signal.returned .nil = .returned .nil) ∧
      s.run 99 "A()();".toUTF8.toList =
        some (.error (.runtime (.runtime cause line trace)), s') ∧
      cause ≠ .returnAtTopLevel ∧ cause ≠ .jumpAtTopLevel := by
  have h : (((Session.start 0).run 99 initializerUnit).bind fun r =>
      (r.2.accept? "A()();".toUTF8.toList).bind fun a =>
      a.1.head?.bind fun x =>
      (r.2.run 99 "A()();".toUTF8.toList).map fun r' =>
        (((x.begins a.2.machine).steps 15).endsInitializer, failure? r'.1)) =
      some (true, some (.runtime (.runtime (.notCallable .instance_) 1 []))) := by
    decide +kernel
  obtain ⟨⟨result, s⟩, hrun, h⟩ := Option.bind_eq_some_iff.1 h
  obtain ⟨⟨program, s₁⟩, haccept, h⟩ := Option.bind_eq_some_iff.1 h
  obtain ⟨x, hx, h⟩ := Option.bind_eq_some_iff.1 h
  obtain ⟨after, rfl⟩ := List.head?_eq_some_iff.1 hx
  obtain ⟨⟨result', s'⟩, hrun', h⟩ := Option.map_eq_some_iff.1 h
  obtain ⟨hends, hfailure⟩ := Prod.mk.inj h
  cases result' with
  | ok values => cases hfailure
  | error d =>
    cases hfailure
    obtain ⟨W, hmoment⟩ := Session.Moment.first (.run .start hrun) haccept 15
    have hreach : Session.Reachable 0 s := .run .start hrun
    unfold State.endsInitializer at hends
    split at hends
    · next f stack m hst =>
      rw [hst] at hmoment
      exact ⟨s, s', W, f, stack, m, _, _, _, hreach, hmoment, hends,
        ((signals_stay_inside 0).2 _ _ _ _ _ hmoment).2 hends, hrun',
        (signals_stay_inside 0).1 _ _ _ _ _ _ _ hreach hrun'⟩
    · cases hends

end TreeWalk
