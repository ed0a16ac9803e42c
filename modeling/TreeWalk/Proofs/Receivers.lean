import Mathlib.Data.List.Forall2
import TreeWalk.Proofs.Timeline

/-!
# A bound method keeps its instance

Reading a method of an instance makes a function whose scope holds nothing but `this`, and so does the
call that makes the instance (`State.Binds`). That scope keeps its `this` for good, and whatever runs in a
call of the function, or in a call of a closure made there, runs inside of the scope with no other `this`
on the way out (`Tied`). The walk has seen the same scopes (`Setting.Aligned`), so the distance that it
recorded for a `this` leads there and nowhere else (`Session.receivers_fixed`).
-/

namespace TreeWalk

/-! ### `this` in the walk -/

/-- A scope of the walk has `this`, with its value, if it stands for the scope around a method, and
only then. -/
structure Site.Shows (site : Site) (scope : Table Bool) : Prop where
  bound : ∀ decl, site = .bound decl → scope.contains "this"
  marked : scope.contains "this" → scope.get? "this" = some true

namespace Setting

/-- All scopes of the setting show `this` where they should. -/
def Aligned (p : Setting) : Prop :=
  List.Forall₂ Site.Shows p.sites p.context.scopes

variable {p : Setting} {names : List Token}

theorem aligned_top : Setting.top.Aligned := .nil

theorem Aligned.mark (h : p.Aligned) {name : Token} (hname : name.lexeme ≠ "this") (b : Bool) :
    Aligned { p with context := p.context.mark name b } := by
  obtain ⟨⟨scopes, body, inClass⟩, sites, inLoop⟩ := p
  cases h with
  | nil => exact .nil
  | @cons site scope sites scopes hshows hrest =>
    have hget : (scope.set name.lexeme b).get? "this" = scope.get? "this" :=
      Table.get?_set_ne hname b scope
    have hcontains : (scope.set name.lexeme b).contains "this" = scope.contains "this" := by
      rw [Table.contains, Table.contains, hget]
    refine .cons ⟨?_, ?_⟩ hrest
    · rw [hcontains]
      exact hshows.bound
    · rw [hcontains, hget]
      exact hshows.marked

theorem Aligned.foldl {g : Context → Token → Context}
    (hg : ∀ {p : Setting}, p.Aligned → ∀ name : Token, name.lexeme ≠ "this" →
      Aligned { p with context := g p.context name })
    (h : p.Aligned) (hnames : ∀ x ∈ names, x.Names Token.Worded) :
    Aligned { p with context := names.foldl g p.context } := by
  induction names generalizing p with
  | nil => exact h
  | cons name names ih =>
    obtain ⟨hname, hnames⟩ := List.forall_mem_cons.1 hnames
    exact ih (hg h name hname.ne_this) hnames

theorem Aligned.declared (h : p.Aligned) (hnames : ∀ x ∈ names, x.Names Token.Worded) :
    Aligned { p with context := p.context.declared names } :=
  Aligned.foldl (fun h _ hname => h.mark hname false) h hnames

theorem Aligned.defined (h : p.Aligned) (hnames : ∀ x ∈ names, x.Names Token.Worded) :
    Aligned { p with context := p.context.defined names } :=
  Aligned.foldl (fun h _ hname => h.mark hname true) h hnames

theorem Aligned.introduced (h : p.Aligned) (hnames : ∀ x ∈ names, x.Names Token.Worded) :
    Aligned { p with context := p.context.introduced names } :=
  Aligned.foldl (fun h _ hname => (h.mark hname false).mark hname true) h hnames

/-- An empty scope that stands for something else than the scope around a method. -/
theorem shows_empty {site : Site} (h : ∀ decl, site ≠ .bound decl) : site.Shows [] :=
  ⟨fun decl hsite => absurd hsite (h decl), nofun⟩

theorem Aligned.inBlock (h : p.Aligned) (body : List Stmt) : (p.inBlock body).Aligned :=
  .cons (shows_empty nofun) h

theorem Aligned.inBody (h : p.Aligned) {decl : FunctionDecl}
    (hnames : ∀ x ∈ decl.parameters, x.Names Token.Worded) (kind : Body) :
    (p.inBody decl kind).Aligned := by
  have hparameters : Aligned ⟨{ p.context with body := kind }.enter [],
      .parameters decl :: p.sites, false⟩ :=
    .cons (shows_empty nofun) h
  exact .cons (shows_empty nofun) (hparameters.introduced hnames)

theorem Aligned.inClass (h : p.Aligned) (decl : FunctionDecl) : (p.inClass decl).Aligned :=
  .cons ⟨fun _ _ => rfl, fun _ => rfl⟩ h

end Setting

theorem Stmt.Spelled.aligned_after {s : Stmt} {p : Setting} (hs : s.Spelled Token.Worded)
    (h : p.Aligned) : (p.after s).Aligned := by
  cases s with
  | block | expression | print | returning | breaking | continuing => exact h
  | var bindings =>
    have hbindings : bindingsSpelled Token.Worded bindings := hs
    have hnames : ∀ x ∈ bindings.map Prod.fst, x.Names Token.Worded :=
      List.forall_mem_map.2 fun b hb => (bindingsSpelled_iff.1 hbindings b hb).1
    exact (h.declared hnames).defined hnames
  | function decl =>
    have hdecl : decl.Spelled Token.Worded := hs
    exact h.introduced fun name hname =>
      (FunctionDecl.spelled_iff.1 hdecl).1 name (Option.mem_toList.1 hname)
  | classDecl name methods => exact h.introduced (List.forall_mem_singleton.2 hs.1)
  | conditional condition whenTrue whenFalse =>
    cases whenFalse with
    | none => exact Stmt.Spelled.aligned_after (s := whenTrue) hs.2 h
    | some whenFalse =>
      exact Stmt.Spelled.aligned_after (s := whenFalse) hs.2.2
        (Stmt.Spelled.aligned_after (s := whenTrue) hs.2.1 h)
  | loop condition body increment =>
    cases increment with
    | none => exact Stmt.Spelled.aligned_after (s := body) hs.2 h
    | some increment => exact Stmt.Spelled.aligned_after (s := body) hs.2.1 h

namespace Part

variable {p : Setting} {q : Part × Setting}

def Spelled (P : Token → Prop) : Part → Prop
  | .expr e => e.Spelled P
  | .stmt s => s.Spelled P
  | .stmts ss => stmtsSpelled P ss

/-- The part is spelled with words of a source, in a setting that shows `this` where it should. -/
structure Proper (part : Part) (p : Setting) : Prop where
  spelled : part.Spelled Token.Worded
  aligned : p.Aligned

theorem proper_exprs {es : List Expr} (hes : ∀ e ∈ es, e.Spelled Token.Worded) (hp : p.Aligned)
    (hq : q ∈ exprs es p) : q.1.Proper q.2 := by
  obtain ⟨e, he, rfl⟩ := List.mem_map.1 hq
  exact ⟨hes e he, hp⟩

theorem proper_body {decl : FunctionDecl} (hdecl : decl.Spelled Token.Worded) (hp : p.Aligned)
    (kind : Body) : (Part.stmts decl.body).Proper (p.inBody decl kind) := by
  obtain ⟨-, hparameters, hbody, -⟩ := FunctionDecl.spelled_iff.1 hdecl
  exact ⟨hbody, hp.inBody hparameters kind⟩

theorem spelled_operands {e : Expr} (h : e.Spelled Token.Worded) :
    ∀ x ∈ e.operands, x.Spelled Token.Worded := by
  cases e with
  | literal | «variable» | this | lambda => exact nofun
  | group e => exact List.forall_mem_singleton.2 h
  | unary _ e _ | assign _ _ e | get e _ => exact List.forall_mem_singleton.2 h.2
  | binary | logical | index | set =>
    exact List.forall_mem_cons.2 ⟨h.2.1, List.forall_mem_singleton.2 h.2.2⟩
  | ternary =>
    exact List.forall_mem_cons.2
      ⟨h.1, List.forall_mem_cons.2 ⟨h.2.1, List.forall_mem_singleton.2 h.2.2⟩⟩
  | call => exact List.forall_mem_cons.2 ⟨h.2.1, exprsSpelled_iff.1 h.2.2⟩
  | array => exact exprsSpelled_iff.1 h.2

theorem proper_expr {e : Expr} (h : (Part.expr e).Proper p) (hq : q ∈ (Part.expr e).children p) :
    q.1.Proper q.2 := by
  have he : e.Spelled Token.Worded := h.spelled
  cases e with
  | lambda decl =>
    obtain rfl := List.mem_singleton.1 hq
    exact proper_body he h.aligned .function
  | _ => exact proper_exprs (p := p) (spelled_operands he) h.aligned hq

theorem proper_stmt {s : Stmt} (h : (Part.stmt s).Proper p) (hq : q ∈ (Part.stmt s).children p) :
    q.1.Proper q.2 := by
  have hs : s.Spelled Token.Worded := h.spelled
  have hp := h.aligned
  have hafter := hs.aligned_after hp
  cases s with
  | block body =>
    obtain rfl := List.mem_singleton.1 hq
    exact ⟨hs, hp.inBlock body⟩
  | expression value | print value =>
    obtain rfl := List.mem_singleton.1 hq
    exact ⟨hs, hp⟩
  | var bindings =>
    have hbindings : bindingsSpelled Token.Worded bindings := hs
    have hall := bindingsSpelled_iff.1 hbindings
    refine proper_exprs (fun e he => ?_)
      (hp.declared (List.forall_mem_map.2 fun b hb => (hall b hb).1)) hq
    obtain ⟨b, hb, hvalue⟩ := List.mem_filterMap.1 he
    exact (hall b hb).2 e hvalue
  | function decl =>
    obtain rfl := List.mem_singleton.1 hq
    exact proper_body hs hafter .function
  | classDecl name methods =>
    obtain ⟨decl, hm, rfl⟩ := List.mem_map.1 hq
    exact proper_body (methodsSpelled_iff.1 hs.2 decl hm) (hafter.inClass decl) _
  | conditional condition whenTrue whenFalse =>
    cases whenFalse with
    | none =>
      simp only [Part.children, List.mem_cons, List.not_mem_nil, or_false] at hq
      rcases hq with rfl | rfl
      · exact ⟨hs.1, hp⟩
      · exact ⟨hs.2, hp⟩
    | some whenFalse =>
      simp only [Part.children, List.mem_cons, List.not_mem_nil, or_false] at hq
      rcases hq with rfl | rfl | rfl
      · exact ⟨hs.1, hp⟩
      · exact ⟨hs.2.1, hp⟩
      · exact ⟨hs.2.2, Stmt.Spelled.aligned_after (s := whenTrue) hs.2.1 hp⟩
  | loop condition body increment =>
    simp only [Part.children, List.mem_cons] at hq
    cases increment with
    | none =>
      rcases hq with rfl | rfl | hq
      · exact ⟨hs.1, hp⟩
      · exact ⟨hs.2, hp⟩
      · cases hq
    | some increment =>
      rcases hq with rfl | rfl | hq
      · exact ⟨hs.1, hp⟩
      · exact ⟨hs.2.1, hp⟩
      · obtain rfl := List.mem_singleton.1 hq
        exact ⟨hs.2.2, Stmt.Spelled.aligned_after (s := body) hs.2.1 hp⟩
  | returning keyword value =>
    cases value with
    | none => cases hq
    | some value =>
      obtain rfl := List.mem_singleton.1 hq
      exact ⟨hs.2, hp⟩
  | breaking | continuing => cases hq

theorem Proper.child {part : Part} (h : part.Proper p) (hq : q ∈ part.children p) :
    q.1.Proper q.2 := by
  cases part with
  | expr e => exact proper_expr h hq
  | stmt s => exact proper_stmt h hq
  | stmts ss =>
    cases ss with
    | nil => cases hq
    | cons s rest =>
      obtain ⟨hs, hrest⟩ : s.Spelled Token.Worded ∧ stmtsSpelled Token.Worded rest := h.spelled
      simp only [Part.children, List.mem_cons, List.not_mem_nil, or_false] at hq
      rcases hq with rfl | rfl
      · exact ⟨hs, h.aligned⟩
      · exact ⟨hrest, hs.aligned_after h.aligned⟩

theorem Proper.visits {part part' : Part} {p' : Setting} (h : part.Proper p)
    (hv : Visits part p part' p') : part'.Proper p' := by
  induction hv with
  | here => exact h
  | inside hc _ ih => exact ih (h.child hc)

end Part

/-! ### `this` in the machine -/

/-- The walk finds `this` as many scopes out as the machine does. -/
theorem Chain.distance_this {log : List Site} {s : Scopes} {e e' : Nat} {sites : List Site}
    {scopes : List (Table Bool)} {v : Value} (hchain : Chain log s [] e sites scopes)
    (hshows : List.Forall₂ Site.Shows sites scopes) (hroot : Scopes.root.Keeps s)
    (hbound : ∀ e v, s.here? e "this" = some v → ∃ decl, log[e]? = some (.bound decl))
    (hin : s.Within e e') (hv : s.here? e' "this" = some v) :
    ∃ d, scopes.findIdx? (fun scope => scope.contains "this") = some d ∧
      s.getAt? e d "this" = some v := by
  induction hin generalizing sites scopes with
  | here =>
    cases hchain with
    | globals =>
      have hnone : s.here? 0 "this" = none := hroot.this 0 Nat.zero_lt_one
      rw [hnone] at hv
      cases hv
    | inner hsite =>
      cases hshows with
      | cons hhead =>
        obtain ⟨decl, hdecl⟩ := hbound _ v hv
        have hcontains := hhead.bound decl (Option.some.inj (hsite.symm.trans hdecl))
        exact ⟨0, by rw [List.findIdx?_cons, hcontains]; rfl, hv⟩
  | @out e outer e' hthis houter _ ih =>
    cases hchain with
    | globals =>
      have hnone : (s.cell 0).enclosing = none := hroot.enclosing 0 Nat.zero_lt_one
      rw [hnone] at houter
      cases houter
    | @inner _ _ _ _ _ scope _ _ houter' hnames hrest =>
      obtain rfl := Option.some.inj (houter'.symm.trans houter)
      cases hshows with
      | cons hhead htail =>
        obtain ⟨d, hd, hget⟩ := ih hrest htail hv
        have hscope : scope.contains "this" = false := by
          refine Bool.eq_false_iff.2 fun hcontains => ?_
          -- the machine would have a value for what is marked in the walk
          have hbinds := (hnames "this" (hhead.marked hcontains)).resolve_right List.not_mem_nil
          obtain ⟨w, hw⟩ := Option.isSome_iff_exists.1 hbinds
          rw [Scopes.here?, hw] at hthis
          cases hthis
        refine ⟨d + 1, ?_, ?_⟩
        · rw [List.findIdx?_cons, hscope, hd]
          rfl
        · rw [Scopes.getAt?, Scopes.ancestor?, houter]
          exact hget

namespace Session

variable {W : World} {st : State} {rest : List Stmt} {n : Nat} {stack : List Frame} {m : Machine}

/-- The value of `this` is that of the nearest scope that holds one. -/
theorem Underway.this_value {reference e : Nat} {keyword : Token} {v : Value}
    (h : Underway W ⟨.evaluate (.this reference keyword), stack, m⟩ rest n)
    (hin : m.heap.scopes.Within m.scope e) (hv : m.heap.scopes.here? e "this" = some v) :
    State.step ⟨.evaluate (.this reference keyword), stack, m⟩ = ⟨.value v, stack, m⟩ := by
  obtain ⟨p, hk, hat, -⟩ := h.state.focus
  obtain ⟨program, hprogram, hvisits⟩ : W.Visited (.expr (.this reference keyword)) p :=
    hk.visited rfl
  have hproper : (Part.stmts program).Proper .top :=
    ⟨h.programs program hprogram, Setting.aligned_top⟩
  have hword : keyword.lexeme = "this" := by
    obtain ⟨hworded, hkeyword⟩ := h.wording.focus
    exact hworded.2 hkeyword
  obtain ⟨d, hd, hget⟩ :=
    Chain.distance_this hat (hproper.visits hvisits).aligned h.root h.bound hin hv
  have hdistance : m.distances.get? reference = some d := by
    refine (h.fits.recorded _ p reference keyword (hk.visited rfl) rfl).trans ?_
    rw [hword]
    exact hd
  have hfound : m.lookUp reference keyword = .ok v := by
    simp only [Machine.lookUp, hdistance, hword, hget]
  show State.settle (m.lookUp reference keyword) stack m = _
  rw [hfound]
  rfl

end Session

/-! ### Bindings -/

namespace State

variable {W : World} {stack : List Frame} {m m' : Machine} {focus : Focus} {o k r line : Nat}
  {f : Function} {arguments : List Value}

/-- The next step binds a function to an instance: it reads a method of the instance, or it makes the
instance and enters the initializer of its class. -/
inductive Binds : State → (o : Nat) → Function → Prop
  | read {o r name stack m m'}
      (hfield : (m.heap.instance_ o).fields.get? name.lexeme = none)
      (hstep : step ⟨.value (.instance_ o), .get name :: stack, m⟩ =
        ⟨.value (.function r), stack, m'⟩) :
      Binds ⟨.value (.instance_ o), .get name :: stack, m⟩ o (m'.heap.function r)
  | construct {k arguments line stack m focus inner f o m'}
      (hstep : step ⟨.invoke (.class_ k) arguments line, stack, m⟩ =
        ⟨focus, inner ++ .body f :: .construct o :: .leave :: stack, m'⟩) :
      Binds ⟨.invoke (.class_ k) arguments line, stack, m⟩ o f

/-- A call is refused, or it is entered, whatever is on the stack. -/
theorem invoke_or (callee : Value) (arguments : List Value) (line : Nat) (m : Machine) :
    (∃ f, ∀ stack, invoke callee arguments line stack m = ⟨.fault f, stack, m⟩) ∨
      ∀ stack, invoke callee arguments line stack m =
        enterCallee callee arguments line (.leave :: stack)
          (m.enterCall (calleeName m.heap callee)) := by
  unfold invoke
  split
  · exact .inl ⟨_, fun _ => rfl⟩
  · split
    · exact .inl ⟨_, fun _ => rfl⟩
    · split
      · exact .inl ⟨_, fun _ => rfl⟩
      · exact .inr fun _ => rfl

theorem stack_enterBody (f : Function) (arguments : List Value) (stack : List Frame) (m : Machine) :
    ∃ inner, (enterBody f arguments stack m).stack = inner ++ .body f :: stack := by
  unfold enterBody
  cases f.decl.body with
  | nil => exact ⟨[.restore m.scope], rfl⟩
  | cons x rest => exact ⟨[.sequence rest, .restore m.scope], rfl⟩

theorem focus_enterBody (f : Function) (arguments : List Value) (stack : List Frame) (m : Machine)
    (v : Value) : (enterBody f arguments stack m).focus ≠ .value v := by
  unfold enterBody
  cases f.decl.body <;> nofun

/-- What a call does that makes an instance and enters an initializer. -/
theorem construct_eq {inner : List Frame}
    (h : invoke (.class_ k) arguments line stack m =
      ⟨focus, inner ++ .body f :: .construct o :: .leave :: stack, m'⟩) :
    ∃ g m₁, (m.heap.class_ k).methods.get? initializerName = some g ∧
      f = ((m.heap.newInstance k).2.bindMethod g o).1 ∧
      m₁.heap = ((m.heap.newInstance k).2.bindMethod g o).2 ∧
      ∀ stack, invoke (.class_ k) arguments line stack m =
        enterBody f arguments (.construct o :: .leave :: stack) m₁ := by
  have hshort (below : List Frame) (hbelow : below.length < stack.length + 3) :
      below ≠ inner ++ .body f :: .construct o :: .leave :: stack := by
    intro heq
    have hlength := congrArg List.length heq
    simp only [List.length_append, List.length_cons] at hlength
    omega
  rcases invoke_or (.class_ k) arguments line m with ⟨fault, hrefused⟩ | hentered
  · rw [hrefused] at h
    exact absurd (congrArg State.stack h) (hshort stack (by omega))
  rw [hentered] at h
  have hclass : (m.heap.newInstance k).2.class_ k = m.heap.class_ k := rfl
  cases hg : (m.heap.class_ k).methods.get? initializerName with
  | none =>
    simp only [enterCallee, instantiate, Machine.enterCall, hclass, hg] at h
    exact absurd (congrArg State.stack h) (hshort _ (by simp))
  | some g =>
    let bound := (m.heap.newInstance k).2.bindMethod g m.heap.instances.size
    obtain ⟨m₁, hheap, hcall⟩ : ∃ m₁ : Machine, m₁.heap = bound.2 ∧
        ∀ stack, invoke (.class_ k) arguments line stack m =
          enterBody bound.1 arguments (.construct m.heap.instances.size :: .leave :: stack) m₁ := by
      refine ⟨{ m.enterCall (calleeName m.heap (.class_ k)) with heap := bound.2 }, rfl,
        fun stack => ?_⟩
      rw [hentered]
      simp only [enterCallee, instantiate, Machine.enterCall, hclass, hg]
      rfl
    obtain ⟨inner', hstack⟩ := stack_enterBody bound.1 arguments
      (.construct m.heap.instances.size :: .leave :: stack) m₁
    rw [← hentered, hcall] at h
    rw [h] at hstack
    obtain ⟨hbody, hconstruct⟩ := List.cons.inj (List.append_inj_right' hstack rfl)
    cases hconstruct
    cases hbody
    exact ⟨g, m₁, rfl, rfl, hheap, hcall⟩

/-- Every call that enters an initializer binds it to the instance that the call makes. -/
theorem binds_of_entered {g : Function} (hg : (m.heap.class_ k).methods.get? initializerName = some g)
    (haccepts : g.arity.accepts arguments.length) (hdepth : m.depth < maxDepth) :
    ∃ f, Binds ⟨.invoke (.class_ k) arguments line, stack, m⟩ m.heap.instances.size f := by
  let bound := (m.heap.newInstance k).2.bindMethod g m.heap.instances.size
  let entered : Machine := { m.enterCall (calleeName m.heap (.class_ k)) with heap := bound.2 }
  have harity : arity? m.heap (.class_ k) = some g.arity := by
    simp only [arity?, hg]
  have hstep : step ⟨.invoke (.class_ k) arguments line, stack, m⟩ =
      enterBody bound.1 arguments (.construct m.heap.instances.size :: .leave :: stack) entered := by
    have hclass : (m.heap.newInstance k).2.class_ k = m.heap.class_ k := rfl
    refine (invoke_entered harity haccepts hdepth).trans ?_
    simp only [enterCallee, instantiate, Machine.enterCall, hclass, hg]
    rfl
  obtain ⟨inner, hstack⟩ := stack_enterBody bound.1 arguments
    (.construct m.heap.instances.size :: .leave :: stack) entered
  rw [← hstep] at hstack
  exact ⟨bound.1, .construct (congrArg (State.mk _ · _) hstack)⟩

end State

/-- The function is bound to the instance: its scope holds the instance. -/
structure Machine.Bound (m : Machine) (o : Nat) (f : Function) : Prop where
  this : m.heap.scopes.here? f.scope "this" = some (.instance_ o)
  initializer : f.isInitializer = decide (f.decl.label = initializerName)

namespace State

variable {W : World} {st : State} {o : Nat} {f : Function}

theorem Binds.running (h : st.Binds o f) : st.ending? = none := by
  cases h <;> rfl

theorem Binds.bound (h : st.Binds o f) (hh : W.HeapFits st.machine.heap)
    (hs : st.machine.heap.Spelled Token.Worded) : st.step.machine.Bound o f := by
  cases h with
  | @read o r name stack m m' hfield hstep =>
    have hproperty : property o name stack m = ⟨.value (.function r), stack, m'⟩ := hstep
    unfold property at hproperty
    rw [hfield] at hproperty
    dsimp only at hproperty
    split at hproperty
    · next g hg =>
      obtain ⟨-, -, -, hinitializer⟩ := hh.methods _ _ g hg
      cases hproperty
      have hfunction := (m.heap.bindMethod g o).2.function_newFunction (m.heap.bindMethod g o).1
        (m.heap.bindMethod g o).2.functions.size
      rw [if_pos rfl] at hfunction
      rw [hstep]
      refine Eq.mpr (congrArg (Machine.Bound _ o) hfunction) ⟨?_, hinitializer⟩
      exact Scopes.here?_bind m.heap.scopes g.scope (.instance_ o)
    · cases hproperty
  | @construct k arguments line stack m focus inner f o m' hstep =>
    obtain ⟨g, m₁, hg, rfl, hheap, hcall⟩ := construct_eq hstep
    obtain ⟨-, -, -, hinitializer⟩ := hh.methods _ _ g hg
    have hthis : m₁.heap.scopes.here? m.heap.scopes.nextScope "this" = some (.instance_ o) := by
      rw [hheap]
      exact Scopes.here?_bind m.heap.scopes g.scope (.instance_ o)
    have hmethod := (hs.methods k _ g hg).bound (m.heap.newInstance k).2 o
    have hkeeps := keeps_enterBody hmethod arguments (.construct o :: .leave :: stack) m₁
    have hstep : step ⟨.invoke (.class_ k) arguments line, stack, m⟩ = _ := hcall stack
    rw [hstep]
    exact ⟨(hkeeps.this _ (Scopes.lt_of_here? hthis)).trans hthis, hinitializer⟩

end State

/-! ### Calls of initializers -/

theorem Machine.run_invoke {m m' : Machine} {limit line : Nat} {callee v : Value}
    {arguments : List Value} (h : m.call limit callee arguments line = some (.ok v, m')) :
    ∃ limit, State.run limit (State.invoke callee arguments line [] m) = some (.value v, m') := by
  have hrun := run_of_call h
  cases limit with
  | zero => cases hrun
  | succ limit => exact ⟨limit, hrun⟩

namespace State

variable {W : World} {stack : List Frame} {m m' : Machine} {o r e limit : Nat} {f : Function}
  {v w : Value} {arguments : List Value}

theorem run_fault_ne (fault : Fault) : State.run limit ⟨.fault fault, [], m⟩ ≠ some (.value v, m') := by
  cases limit <;> nofun

/-- The body of an initializer has ended, and its call gives what the scope of the function holds. -/
theorem value_of_initializer {ending : Ending} (hinit : f.isInitializer)
    (hthis : m.heap.scopes.here? f.scope "this" = some w) (hending : ∀ v, ending ≠ .value v)
    (h : State.run limit ⟨ending.focus, [.restore e, .body f, .leave], m⟩ = some (.value v, m')) :
    v = w := by
  cases ending with
  | value v => exact absurd rfl (hending v)
  | signal x =>
    have hbody : bodyValue f x { m with scope := e } = .ok w := by
      unfold bodyValue
      rw [if_pos hinit]
      have hget : m.heap.scopes.getAt? f.scope 0 "this" = some w := hthis
      simp only [hget]
    have hrun : State.run 4 ⟨.signal x, [.restore e, .body f, .leave], m⟩ =
        some (.value w, ({ m with scope := e } : Machine).leaveCall) := by
      show State.run 2 (settle (bodyValue f x { m with scope := e }) [.leave] _) = _
      rw [hbody]
      rfl
    exact Ending.value.inj (congrArg Prod.fst (run_unique h hrun))
  | fault fault =>
    have hrun : State.run 4 ⟨.fault fault, [.restore e, .body f, .leave], m⟩ =
        some (.fault (fault.withTrace m.calls), ({ m with scope := e } : Machine).leaveCall) := rfl
    cases run_unique h hrun

/-- The body of an initializer is run in a call, and the call gives what the scope of the function
holds. -/
theorem value_of_enterBody (hW : W.Sound) (hfits : (enterBody f arguments [.leave] m).Fits W)
    (hh : m.heap.Spelled Token.Worded) (hf : f.Spelled Token.Worded) (hinit : f.isInitializer)
    (hthis : m.heap.scopes.here? f.scope "this" = some w)
    (h : State.run limit (enterBody f arguments [.leave] m) = some (.value v, m')) : v = w := by
  let below : List Frame := [.restore m.scope, .body f, .leave]
  have hspelled : (enterBody f arguments [.leave] m).Spelled Token.Worded :=
    spelled_enterBody hh (List.forall_mem_singleton.2 trivial) hf
  have hkeeps := keeps_enterBody hf arguments [.leave] m
  obtain ⟨inner, hbody⟩ : ∃ inner, enterBody f arguments [.leave] m =
      (runStmts f.decl.body [] inner).onTop below :=
    ⟨_, runStmts_onTop [] _⟩
  rw [hbody] at hfits hspelled hkeeps h
  obtain ⟨_, _, ending, m₁, hinner, hrest⟩ := run_onTop h
  obtain ⟨count, hrunning, hsteps⟩ := running_of_run hinner
  have hended : ((runStmts f.decl.body [] inner).onTop below).steps count =
      ⟨ending.focus, below, m₁⟩ := by
    rw [steps_onTop hrunning, hsteps]
    rfl
  have hkept := hkeeps.trans (hspelled.steps_keeps count)
  have hfits := fits_steps hW hfits count
  rw [hended] at hkept hfits
  refine value_of_initializer hinit ?_ ?_ hrest
  · exact (hkept.this _ (Scopes.lt_of_here? hthis)).trans hthis
  · -- a frame that restores a scope does not wait for a value
    rintro v rfl
    have hwaits : Waits _ _ .value _ [.restore m.scope, .body f, .leave] := hfits.focus
    cases hwaits with
    | operands hf => cases hf
    | finish hf => rcases hf with hf | hf <;> cases hf

end State

/-- A call of an initializer gives what the scope of the function holds, if it gives anything. -/
theorem Machine.call_initializer {W : World} {m m' : Machine} {r limit line : Nat} {v w : Value}
    {arguments : List Value} (hW : W.Sound) (hh : W.HeapFits m.heap)
    (hs : m.heap.Spelled Token.Worded) (hinit : (m.heap.function r).isInitializer)
    (hthis : m.heap.scopes.here? (m.heap.function r).scope "this" = some w)
    (h : m.call limit (.function r) arguments line = some (.ok v, m')) : v = w := by
  obtain ⟨limit, hrun⟩ := run_invoke h
  rcases State.invoke_or (.function r) arguments line m with ⟨fault, hrefused⟩ | hentered
  · rw [hrefused] at hrun
    exact absurd hrun (State.run_fault_ne fault)
  have hcall : State.Fits W ⟨.invoke (.function r) arguments line, [], m⟩ := ⟨hh, .nothing⟩
  have hstep : State.step ⟨.invoke (.function r) arguments line, [], m⟩ =
      State.enterBody (m.heap.function r) arguments [.leave] _ := hentered []
  have hfits := State.fits_step hW hcall
  rw [hstep] at hfits
  rw [hentered] at hrun
  exact State.value_of_enterBody (W := W.extend _) hW hfits hs (hs.functions r) hinit hthis hrun

/-- A call that makes an instance and enters an initializer gives the instance, if it gives anything. -/
theorem State.Binds.value_of_call {m m' : Machine} {k o limit line : Nat} {f : Function} {v : Value}
    {arguments : List Value} {stack : List Frame}
    (hbinds : State.Binds ⟨.invoke (.class_ k) arguments line, stack, m⟩ o f)
    (h : m.call limit (.class_ k) arguments line = some (.ok v, m')) : v = .instance_ o := by
  cases hbinds with
  | construct hstep =>
    obtain ⟨g, m₁, -, -, -, hcall⟩ := State.construct_eq hstep
    obtain ⟨limit, hrun⟩ := Machine.run_invoke h
    have hbelow : State.enterBody f arguments [.construct o, .leave] m₁ =
        (State.enterBody f arguments [] m₁).onTop [.construct o, .leave] :=
      State.enterBody_onTop [] f arguments
    rw [hcall, hbelow] at hrun
    obtain ⟨_, _, ending, m₁, -, hrest⟩ := State.run_onTop hrun
    cases ending with
    | value w =>
      have hrun : State.run 3 ⟨.value w, [.construct o, .leave], m₁⟩ =
        some (.value (.instance_ o), m₁.leaveCall) := rfl
      exact Ending.value.inj (congrArg Prod.fst (State.run_unique hrest hrun))
    | signal x =>
      have hrun : State.run 3 ⟨.signal x, [.construct o, .leave], m₁⟩ =
        some (.signal x, m₁.leaveCall) := rfl
      cases State.run_unique hrest hrun
    | fault fault =>
      have hrun : State.run 3 ⟨.fault fault, [.construct o, .leave], m₁⟩ =
        some (.fault (fault.withTrace m₁.calls), m₁.leaveCall) := rfl
      cases State.run_unique hrest hrun

/-! ### Calls and closures of a function -/

/-- The scope of the function whose body is under way. -/
def activeScope? (stack : List Frame) : Option Nat :=
  (activeFunction? stack).map Function.scope

/-- Whether the next step makes a function: of a lambda or of a function statement. -/
def State.makesFunction : State → Bool
  | ⟨.evaluate (.lambda _), _, _⟩ | ⟨.execute (.function _), _, _⟩ => true
  | _ => false

namespace Session

open Relation (ReflTransGen TransGen)

/-- At stage `c`, behind stage `a`, functions with scope `e'` are tied to the one with scope `e`: they
are this function, or they were made behind `a` while the body of a function that is tied was under
way. -/
inductive Tied (a : Stage) (e : Nat) : Stage → (e' : Nat) → Prop
  | bound {c} (h : Next a c) : Tied a e c e
  | later {b c e'} (h : Tied a e b e') (hnext : Next b c) : Tied a e c e'
  | made {st rest n e'} (h : Tied a e (.running st rest n) e')
      (hactive : activeScope? st.stack = some e') (hmakes : st.makesFunction) :
      Tied a e (.running st.step rest n) st.machine.scope

variable {time : Float} {a b c : Stage} {e e' n o : Nat} {st : State} {rest : List Stmt}
  {f : Function}

theorem next_of_makesFunction (h : st.makesFunction) (rest : List Stmt) (n : Nat) :
    Next (.running st rest n) (.running st.step rest n) := by
  refine .step ?_
  obtain ⟨focus, stack, m⟩ := st
  cases focus <;> first | rfl | cases h

theorem Tied.reaches (h : Tied a e c e') : TransGen Next a c := by
  induction h with
  | bound h => exact .single h
  | later _ hnext ih => exact ih.tail hnext
  | made _ _ hmakes ih => exact ih.tail (next_of_makesFunction hmakes _ _)

/-- The scope at hand lies in that of the function whose body is under way. -/
theorem Underway.within {W : World} (h : Underway W st rest n)
    (hf : ∀ ending : Ending, st.focus ≠ ending.focus) (hactive : activeScope? st.stack = some e) :
    st.machine.heap.scopes.Within st.machine.scope e := by
  obtain ⟨f, hf', rfl⟩ := Option.map_eq_some_iff.1 hactive
  exact (h.housed.bodies hf).within hf'

/-- What is tied to a function lies in its scope, with no other `this` on the way out. -/
theorem Tied.within (ha : Reached time a) (h : Tied a e c e') :
    c.machine.heap.scopes.Within e' e := by
  have hkeeps {b c : Stage} {e' : Nat} (h : Tied a e b e') (hnext : Next b c) :
      b.machine.heap.scopes.Keeps c.machine.heap.scopes := by
    have hb : Reached time b := ha.trans h.reaches.to_reflTransGen
    exact (hb.keeps (.single hnext)).2
  induction h with
  | bound => exact .here
  | later h hnext ih => exact ih.mono (hkeeps h hnext)
  | @made st rest n e' h hactive hmakes ih =>
    have hreached : Reached time (.running st rest n) := ha.trans h.reaches.to_reflTransGen
    obtain ⟨W, horderly⟩ := hreached.orderly
    have hfocus : ∀ ending : Ending, st.focus ≠ ending.focus := by
      obtain ⟨focus, stack, m⟩ := st
      intro ending heq
      cases ending <;> cases heq <;> cases hmakes
    have hin := (Underway.within horderly hfocus hactive).trans ih
    exact hin.mono (hkeeps h (next_of_makesFunction hmakes rest n))

/-- What comes behind a binding comes behind its step. -/
theorem reaches_of_binds (hbinds : st.Binds o f) (hlater : TransGen Next (.running st rest n) c) :
    Next (.running st rest n) (.running st.step rest n) ∧
      ReflTransGen Next (.running st.step rest n) c := by
  obtain ⟨b, hnext, hrest⟩ := TransGen.head'_iff.1 hlater
  cases hnext with
  | step h => exact ⟨.step h, hrest⟩
  | done h => cases hbinds.running.symm.trans h
  | failed h => cases hbinds.running.symm.trans h

/-- A function stays bound to its instance. -/
theorem bound_later (ha : Reached time (.running st rest n)) (hbinds : st.Binds o f)
    (hlater : TransGen Next (.running st rest n) c) : c.machine.Bound o f := by
  obtain ⟨W, horderly⟩ := ha.orderly
  have hbound := hbinds.bound (Underway.state horderly).heap (Underway.wording horderly).heap
  obtain ⟨hnext, hrest⟩ := reaches_of_binds hbinds hlater
  have hb : Reached time (.running st.step rest n) := ha.tail hnext
  have hkeeps := (hb.keeps hrest).2
  exact ⟨(hkeeps.this _ (Scopes.lt_of_here? hbound.this)).trans hbound.this, hbound.initializer⟩

/-- A value that is a bound method stays one. -/
theorem function_later {r : Nat} {stack : List Frame} {m : Machine}
    (ha : Reached time (.running st rest n)) (hbinds : st.Binds o f)
    (hlater : TransGen Next (.running st rest n) c)
    (hstep : st.step = ⟨.value (.function r), stack, m⟩) : c.machine.heap.function r = f := by
  have hf : m.heap.function r = f := by
    cases hbinds with
    | read _ hread =>
      cases hread.symm.trans hstep
      rfl
    | construct hcall =>
      obtain ⟨g, m₁, -, -, -, hentered⟩ := State.construct_eq hcall
      have hvalue := (hentered _).symm.trans hstep
      exact absurd (congrArg State.focus hvalue) (State.focus_enterBody _ _ _ _ _)
  obtain ⟨hnext, hrest⟩ := reaches_of_binds hbinds hlater
  have hb : Reached time (.running st.step rest n) := ha.tail hnext
  obtain ⟨W, horderly⟩ := hb.orderly
  have hvalues := Underway.values horderly
  have hgrows := (hb.keeps hrest).1
  rw [hstep] at hvalues hgrows
  have hhas : m.heap.Has (.function r) := hvalues.focus _ (List.mem_singleton_self _)
  exact (hgrows.function hhas).trans hf

/-- A function that is bound to an instance keeps it: at every later stage of the session `this` is the
instance in all that is tied to the function, an initializer gives the instance however it is called, and
the value that was read is still the function. A call that makes the instance gives it too. -/
theorem receivers_fixed (hreached : Reached time (.running st rest n)) (hbinds : st.Binds o f)
    (hlater : TransGen Next (.running st rest n) c) :
    (∀ e reference keyword stack m rest' n', Tied (.running st rest n) f.scope c e →
      activeScope? stack = some e →
      c = .running ⟨.evaluate (.this reference keyword), stack, m⟩ rest' n' →
      State.step ⟨.evaluate (.this reference keyword), stack, m⟩ =
        ⟨.value (.instance_ o), stack, m⟩) ∧
    (f.decl.label = initializerName → ∀ limit r arguments line v m',
      c.machine.heap.function r = f →
      c.machine.call limit (.function r) arguments line = some (.ok v, m') → v = .instance_ o) ∧
    (∀ k limit arguments line stack m v m', st = ⟨.invoke (.class_ k) arguments line, stack, m⟩ →
      m.call limit (.class_ k) arguments line = some (.ok v, m') → v = .instance_ o) ∧
    ∀ r stack m, st.step = ⟨.value (.function r), stack, m⟩ → c.machine.heap.function r = f := by
  have hbound := bound_later hreached hbinds hlater
  have hc : Reached time c := hreached.trans hlater.to_reflTransGen
  refine ⟨?_, ?_, ?_, ?_⟩
  · rintro e reference keyword stack m rest' n' htied hactive rfl
    obtain ⟨W, horderly⟩ := hc.orderly
    have hin := (Underway.within horderly nofun hactive).trans (htied.within hreached)
    exact Underway.this_value horderly hin hbound.this
  · rintro hlabel limit r arguments line v m' rfl hcall
    obtain ⟨W, horderly⟩ := hc.orderly
    obtain ⟨_, hmachine⟩ := horderly.machine
    have hinit : (c.machine.heap.function r).isInitializer := by
      rw [hbound.initializer, hlabel]
      rfl
    exact Machine.call_initializer (m := c.machine) hmachine.fits.sound hmachine.fits.heap
      hmachine.spelled hinit hbound.this hcall
  · rintro k limit arguments line stack m v m' rfl hcall
    exact hbinds.value_of_call hcall
  · intro r stack m hstep
    exact function_later hreached hbinds hlater hstep

end Session

/-- The instance, and the number of the method that the next step reads from it. -/
def State.reads? : State → Option (Nat × Nat)
  | ⟨.value (.instance_ o), .get name :: _, m⟩ =>
    match (m.heap.instance_ o).fields.get? name.lexeme,
      (m.heap.classOf o).methods.get? name.lexeme with
    | none, some _ => some (o, m.heap.functions.size)
    | _, _ => none
  | _ => none

theorem State.binds_of_reads? {st : State} {o r : Nat} (h : st.reads? = some (o, r)) :
    (∃ stack, st.step = ⟨.value (.function r), stack, st.step.machine⟩) ∧
      st.Binds o (st.step.machine.heap.function r) := by
  unfold reads? at h
  split at h
  · next o name stack m =>
    split at h
    · next hfield hmethod =>
      cases h
      have hstep : property o name stack m = ⟨.value (.function m.heap.functions.size), stack,
          (property o name stack m).machine⟩ := by
        unfold property
        rw [hfield, hmethod]
        rfl
      exact ⟨⟨stack, hstep⟩, .read hfield hstep⟩
    · cases h
  · cases h

/-- The scope of the function in whose body the next step evaluates `this`. -/
def State.thisScope? : State → Option Nat
  | ⟨.evaluate (.this _ _), stack, _⟩ => activeScope? stack
  | _ => none

namespace Session

open Relation (ReflTransGen TransGen)

theorem Tied.of_reaches {a b c : Stage} {e e' : Nat} (h : Tied a e b e')
    (hlater : ReflTransGen Next b c) : Tied a e c e' := by
  induction hlater with
  | refl => exact h
  | tail _ hnext ih => exact ih.later hnext

/-- The next step reads the initializer of instance 0. Seven steps later a lambda is made in a call of it,
and after eleven more `this` is evaluated in a call of the lambda, where another call of the initializer
would have a value. -/
def readsInitializer (st : State) : Bool :=
  let lambda := st.step.steps 6
  let last := lambda.step.steps 10
  decide (st.reads? = some (0, 1)) &&
    decide ((st.step.machine.heap.function 1).decl.label = initializerName) &&
    decide (activeScope? lambda.stack = some (st.step.machine.heap.function 1).scope) &&
    lambda.makesFunction && decide (last.thisScope? = some lambda.machine.scope) &&
    ((last.machine.call 99 (.function 1) [] 1).bind fun r => r.1.toOption).isSome

/-- The next step enters an initializer in a call that makes an instance, and the call has a value. -/
def entersInitializer : State → Bool
  | ⟨.invoke (.class_ k) arguments line, _, m⟩ =>
    ((m.heap.class_ k).methods.get? initializerName).any
        (fun g => g.arity.accepts arguments.length) &&
      decide (m.depth < maxDepth) &&
      ((m.call 99 (.class_ k) arguments line).bind fun r => r.1.toOption).isSome
  | _ => false

theorem call_of_isSome {m : Machine} {limit line : Nat} {callee : Value} {arguments : List Value}
    (h : ((m.call limit callee arguments line).bind fun r => r.1.toOption).isSome) :
    ∃ v m', m.call limit callee arguments line = some (.ok v, m') := by
  obtain ⟨v, hv⟩ := Option.isSome_iff_exists.1 h
  obtain ⟨⟨outcome, m'⟩, hcall, hv⟩ := Option.bind_eq_some_iff.1 hv
  cases outcome with
  | error f => cases hv
  | ok w => exact ⟨w, m', hcall⟩

/-- A class whose initializer keeps a closure that gives the instance. -/
def receiverUnit : List UInt8 :=
  "class A \x7b init() \x7b this.f = fun () \x7b return this; \x7d; \x7d \x7d".toUTF8.toList

/-- An instance is made, and its initializer is read and called. The closure that it made gives the
instance in a later call, and so do the initializer and the call that made the instance. -/
theorem receivers_fixed_in_closure :
    (∃ st n o f r e reference keyword stack m v m',
      Reached 0 (.running st [] n) ∧ st.Binds o f ∧
      TransGen Next (.running st [] n)
        (.running ⟨.evaluate (.this reference keyword), stack, m⟩ [] n) ∧
      Tied (.running st [] n) f.scope
        (.running ⟨.evaluate (.this reference keyword), stack, m⟩ [] n) e ∧
      activeScope? stack = some e ∧
      State.step ⟨.evaluate (.this reference keyword), stack, m⟩ =
        ⟨.value (.instance_ o), stack, m⟩ ∧
      f.decl.label = initializerName ∧ m.heap.function r = f ∧
      m.call 99 (.function r) [] 1 = some (.ok v, m') ∧ v = .instance_ o) ∧
    ∃ st n o f k arguments line stack m v m',
      Reached 0 (.running st [] n) ∧ st.Binds o f ∧
      st = ⟨.invoke (.class_ k) arguments line, stack, m⟩ ∧
      m.call 99 (.class_ k) arguments line = some (.ok v, m') ∧ v = .instance_ o := by
  have h : (((start 0).run 99 receiverUnit).bind fun r =>
      (r.2.accept? "A().init().f();".toUTF8.toList).bind fun a =>
      a.1.head?.map fun x =>
        (a.1.length, entersInitializer ((x.begins a.2.machine).steps 7),
          readsInitializer ((x.begins a.2.machine).steps 20))) = some (1, true, true) := by
    decide +kernel
  obtain ⟨⟨result, s⟩, hrun, h⟩ := Option.bind_eq_some_iff.1 h
  obtain ⟨⟨program, s'⟩, haccept, h⟩ := Option.bind_eq_some_iff.1 h
  obtain ⟨x, hx, h⟩ := Option.map_eq_some_iff.1 h
  obtain ⟨hlength, h⟩ := Prod.mk.inj h
  obtain ⟨henters, hreads⟩ := Prod.mk.inj h
  obtain ⟨rest, rfl⟩ := List.head?_eq_some_iff.1 hx
  obtain rfl : rest = [] := List.length_eq_zero_iff.1 (Nat.succ.inj hlength)
  have hsteps (count : Nat) :
      Reached 0 (.running ((x.begins s'.machine).steps count) [] s'.nextReference) :=
    ((reaches_run hrun).tail (.accepted haccept)).trans
      (reaches_steps (x.begins s'.machine) [] s'.nextReference count)
  refine ⟨?_, ?_⟩
  · have hreached := hsteps 20
    generalize (x.begins s'.machine).steps 20 = st at hreads hreached
    simp only [readsInitializer, Bool.and_eq_true, decide_eq_true_eq] at hreads
    obtain ⟨⟨⟨⟨⟨hreads, hlabel⟩, hactive⟩, hmakes⟩, hthis⟩, hv⟩ := hreads
    obtain ⟨⟨_, hstep⟩, hbinds⟩ := State.binds_of_reads? hreads
    have hnext : Next (.running st [] s'.nextReference) (.running st.step [] s'.nextReference) :=
      .step hbinds.running
    have hcalled := (Tied.bound (e := (st.step.machine.heap.function 1).scope) hnext).of_reaches
      (reaches_steps st.step [] _ 6)
    have htied := (hcalled.made hactive hmakes).of_reaches
      (reaches_steps (st.step.steps 6).step [] _ 10)
    generalize (st.step.steps 6).step.steps 10 = last at hthis hv htied
    unfold State.thisScope? at hthis
    split at hthis
    · next reference keyword stack m =>
      obtain ⟨v, m', hcall⟩ := call_of_isSome hv
      obtain ⟨hreceiver, hinit, -, hfunction⟩ := receivers_fixed hreached hbinds htied.reaches
      have hf := hfunction _ _ _ hstep
      exact ⟨st, _, 0, _, 1, _, reference, keyword, stack, m, v, m', hreached, hbinds,
        htied.reaches, htied, hthis, hreceiver _ _ _ _ _ _ _ htied hthis rfl, hlabel, hf, hcall,
        hinit hlabel _ _ _ _ _ _ hf hcall⟩
    · cases hthis
  · have hreached := hsteps 7
    generalize (x.begins s'.machine).steps 7 = st at henters hreached
    unfold entersInitializer at henters
    split at henters
    · next k arguments line stack m =>
      simp only [Bool.and_eq_true, decide_eq_true_eq, Option.any_eq_true] at henters
      obtain ⟨⟨⟨g, hg, haccepts⟩, hdepth⟩, hv⟩ := henters
      obtain ⟨v, m', hcall⟩ := call_of_isSome hv
      obtain ⟨f, hbinds⟩ := State.binds_of_entered hg haccepts hdepth
      obtain ⟨-, -, hmade, -⟩ :=
        receivers_fixed hreached hbinds (.single (.step hbinds.running))
      exact ⟨_, _, _, f, k, arguments, line, stack, m, v, m', hreached, hbinds, rfl, hcall,
        hmade _ _ _ _ _ _ _ _ rfl hcall⟩
    · cases henters

end Session

end TreeWalk
