import TreeWalk.Proofs.Chain
import TreeWalk.Proofs.Formed
import TreeWalk.Machine.Step

/-!
# States that fit what the walk has seen

A `World` is what a session has seen: the programs that were accepted, and what each scope of the
machine was made for. A state fits a world if the machine attends to something that the walk visited,
in scopes that are those of the visit, and if whatever waits on the stack can go on in the same way
(`Waits`). The functions and classes in the heap fit too: their scopes are those in which the walk
visited them.

`Waits W s wait e stack` says what the stack takes when the machine is in scope `e`: a value, or the
signal of a statement behind which the walk has a given setting, or the signal of a body.
-/

namespace TreeWalk

/-- An expression or a statement. -/
def Part.isNode : Part → Bool
  | .stmts _ => false
  | _ => true

/-- What a session has seen. -/
structure World where
  programs : List (List Stmt)
  /-- What each scope was made for. -/
  log : List Site

namespace World

/-- The walk over an accepted program comes to the part in the setting. -/
def Visited (W : World) (part : Part) (p : Setting) : Prop :=
  ∃ program ∈ W.programs, Visits (.stmts program) .top part p

/-- Every node in the part was visited as it would be if the part was. -/
def Knows (W : World) (part : Part) (p : Setting) : Prop :=
  ∀ part' p', Visits part p part' p' → part'.isNode → W.Visited part' p'

/-- Scope `e` is the innermost scope of the setting, except for names that wait for values. -/
def At (W : World) (s : Scopes) (pending : List String) (e : Nat) (p : Setting) : Prop :=
  Chain W.log s pending e p.sites p.context.scopes

/-- Accepted programs pass the walk, and they are formed. -/
def Sound (W : World) : Prop :=
  ∀ program ∈ W.programs, Passes (.stmts program) .top ∧ stmtsFormed false program

def extend (W : World) (sites : List Site) : World :=
  { W with log := W.log ++ sites }

structure Le (W W' : World) : Prop where
  programs : ∀ program ∈ W.programs, program ∈ W'.programs
  log : W.log <+: W'.log

variable {W W' : World} {s s' : Scopes}

theorem le_extend (W : World) (sites : List Site) : W.Le (W.extend sites) :=
  ⟨fun _ h => h, List.prefix_append _ _⟩

theorem Le.refl (W : World) : W.Le W :=
  ⟨fun _ h => h, List.prefix_refl _⟩

@[simp]
theorem extend_nil (W : World) : W.extend [] = W := by
  rw [extend, List.append_nil]

theorem extend_extend (W : World) (sites sites' : List Site) :
    (W.extend sites).extend sites' = W.extend (sites ++ sites') := by
  rw [extend, extend, extend, List.append_assoc]

theorem Visited.mono {part : Part} {p : Setting} (h : W.Visited part p) (hW : W.Le W') :
    W'.Visited part p := by
  obtain ⟨program, hm, hv⟩ := h
  exact ⟨program, hW.programs program hm, hv⟩

theorem Knows.mono {part : Part} {p : Setting} (h : W.Knows part p) (hW : W.Le W') :
    W'.Knows part p :=
  fun part' p' hv hn => (h part' p' hv hn).mono hW

theorem Knows.child {part child : Part} {p q : Setting} (h : W.Knows part p)
    (hc : (child, q) ∈ part.children p) : W.Knows child q :=
  fun part' p' hv hn => h part' p' (.inside hc hv) hn

theorem Knows.visited {part : Part} {p : Setting} (h : W.Knows part p) (hn : part.isNode) :
    W.Visited part p :=
  h part p .here hn

theorem Visited.passes {part : Part} {p : Setting} (hW : W.Sound) (h : W.Visited part p) :
    Passes part p := by
  obtain ⟨program, hm, hv⟩ := h
  exact (hW program hm).1.visits hv

theorem Visited.formed {part : Part} {p : Setting} (hW : W.Sound) (h : W.Visited part p) :
    part.Formed p := by
  obtain ⟨program, hm, hv⟩ := h
  have hformed : (Part.stmts program).Formed .top := (hW program hm).2
  exact hformed.visits hv

theorem At.mono {pending : List String} {e : Nat} {p : Setting} (h : W.At s pending e p)
    (hW : W.Le W') (hs : s.Extends s') : W'.At s' pending e p :=
  Chain.mono h hW.log hs

/-! ### Functions, methods and the heap -/

/-- The body of the function was visited, and the function keeps the scope around it. -/
def FunctionFits (W : World) (s : Scopes) (f : Function) : Prop :=
  ∃ p kind, W.Knows (.stmts f.decl.body) (p.inBody f.decl kind) ∧ W.At s [] f.scope p ∧
    kind ≠ .none ∧ (f.isInitializer → kind = .initializer)

/-- The body of the method was visited inside of a class, and the method keeps the scope around the
class. -/
def MethodFits (W : World) (s : Scopes) (f : Function) : Prop :=
  ∃ p, W.Knows (.stmts f.decl.body) ((p.inClass f.decl).inBody f.decl f.decl.methodBody) ∧
    W.At s [] f.scope p ∧ f.isInitializer = decide (f.decl.label = initializerName)

/-- Every function and every class fits, and the log is as long as there are scopes. -/
structure HeapFits (W : World) (h : Heap) : Prop where
  log : W.log.length = h.scopes.nextScope
  functions : ∀ r, W.FunctionFits h.scopes (h.function r)
  methods : ∀ r name f, (h.class_ r).methods.get? name = some f → W.MethodFits h.scopes f

theorem FunctionFits.mono {f : Function} (h : W.FunctionFits s f) (hW : W.Le W')
    (hs : s.Extends s') : W'.FunctionFits s' f := by
  obtain ⟨p, kind, hk, hc, hkind⟩ := h
  exact ⟨p, kind, hk.mono hW, hc.mono hW hs, hkind⟩

theorem FunctionFits.plain {decl : FunctionDecl} {p : Setting} {e : Nat}
    (hk : W.Knows (.stmts decl.body) (p.inBody decl .function)) (hat : W.At s [] e p) :
    W.FunctionFits s ⟨decl, e, false⟩ :=
  ⟨p, .function, hk, hat, nofun, nofun⟩

theorem MethodFits.mono {f : Function} (h : W.MethodFits s f) (hW : W.Le W')
    (hs : s.Extends s') : W'.MethodFits s' f := by
  obtain ⟨p, hk, hc, hi⟩ := h
  exact ⟨p, hk.mono hW, hc.mono hW hs, hi⟩

end World

/-! ### What may happen to the heap -/

namespace Heap

theorem function_newFunction (h : Heap) (f : Function) (r : Nat) :
    (h.newFunction f).2.function r = if r = h.functions.size then f else h.function r := by
  simp only [function, newFunction, Array.getElem?_push]
  split <;> rfl

theorem class_newClass (h : Heap) (c : Class) (r : Nat) :
    (h.newClass c).2.class_ r = if r = h.classes.size then c else h.class_ r := by
  simp only [class_, newClass, Array.getElem?_push]
  split <;> rfl

end Heap

namespace World.HeapFits

variable {W W' : World} {h h' : Heap}

/-- What becomes of instances and arrays does not matter. -/
theorem congr (hh : W.HeapFits h) (hs : h'.scopes = h.scopes) (hf : h'.functions = h.functions)
    (hc : h'.classes = h.classes) : W.HeapFits h' := by
  have hfunction : ∀ r, h'.function r = h.function r := fun r => by
    rw [Heap.function, Heap.function, hf]
  have hclass : ∀ r, h'.class_ r = h.class_ r := fun r => by
    rw [Heap.class_, Heap.class_, hc]
  refine ⟨by rw [hs, hh.log], fun r => ?_, fun r name f hm => ?_⟩
  · rw [hs, hfunction]
    exact hh.functions r
  · rw [hclass] at hm
    rw [hs]
    exact hh.methods r name f hm

theorem scopes {s : Scopes} (hh : W.HeapFits h) (hW : W.Le W') (hs : h.scopes.Extends s)
    (hlog : W'.log.length = s.nextScope) : W'.HeapFits { h with scopes := s } :=
  ⟨hlog, fun r => (hh.functions r).mono hW hs, fun r name f hm => (hh.methods r name f hm).mono hW hs⟩

theorem define (hh : W.HeapFits h) (e : Nat) (x : String) (v : Value) :
    W.HeapFits (h.define e x v) :=
  hh.scopes (.refl W) (h.scopes.extends_define e x v) (by rw [hh.log, Scopes.nextScope_define])

theorem newScope (hh : W.HeapFits h) (e : Nat) (site : Site) :
    (W.extend [site]).HeapFits (h.newScope e).2 := by
  refine hh.scopes (W.le_extend [site]) (h.scopes.extends_child e) ?_
  rw [Scopes.nextScope_child, ← hh.log]
  simp [World.extend]

theorem newFunction {f : Function} (hh : W.HeapFits h) (hf : W.FunctionFits h.scopes f) :
    W.HeapFits (h.newFunction f).2 := by
  refine ⟨hh.log, fun r => ?_, hh.methods⟩
  rw [Heap.function_newFunction]
  split
  · exact hf
  · exact hh.functions r

theorem newClass {c : Class} (hh : W.HeapFits h)
    (hc : ∀ name f, c.methods.get? name = some f → W.MethodFits h.scopes f) :
    W.HeapFits (h.newClass c).2 := by
  refine ⟨hh.log, hh.functions, fun r name f hm => ?_⟩
  rw [Heap.class_newClass] at hm
  split at hm
  · exact hc name f hm
  · exact hh.methods r name f hm

end World.HeapFits

/-! ### Settings -/

namespace World

variable {W : World} {s : Scopes} {e : Nat} {p : Setting} {pending : List String}

theorem At.mark_false (h : W.At s pending e p) (name : Token) :
    W.At s pending e { p with context := p.context.mark name false } := by
  unfold At Context.mark at *
  split
  · exact h
  · next hs =>
    rw [hs] at h
    exact Chain.mark_false h name.lexeme

theorem At.mark_true (h : W.At s pending e p) (name : Token) :
    W.At s (name.lexeme :: pending) e { p with context := p.context.mark name true } := by
  unfold At Context.mark at *
  split
  · exact Chain.subset h fun x hx => .inr (List.mem_cons_of_mem _ hx)
  · next hs =>
    rw [hs] at h
    exact Chain.mark_true h name.lexeme

theorem At.declared (h : W.At s pending e p) (names : List Token) :
    W.At s pending e { p with context := p.context.declared names } := by
  induction names generalizing p with
  | nil => exact h
  | cons name names ih => exact ih (h.mark_false name)

/-- Names are marked one after the other, and wait for their values. -/
theorem At.foldl {g : Context → Token → Context}
    (hg : ∀ {pending p}, W.At s pending e p → ∀ name,
      W.At s (name.lexeme :: pending) e { p with context := g p.context name })
    (h : W.At s pending e p) (names : List Token) :
    W.At s (names.map Token.lexeme ++ pending) e
      { p with context := names.foldl g p.context } := by
  induction names generalizing p pending with
  | nil => exact h
  | cons name names ih =>
    refine Chain.subset (ih (hg h name)) fun x hx => .inr ?_
    simp only [List.mem_append, List.map_cons, List.mem_cons] at hx ⊢
    rcases hx with hx | rfl | hx
    · exact .inl (.inr hx)
    · exact .inl (.inl rfl)
    · exact .inr hx

theorem At.defined (h : W.At s pending e p) (names : List Token) :
    W.At s (names.map Token.lexeme ++ pending) e { p with context := p.context.defined names } :=
  At.foldl (fun h name => h.mark_true name) h names

theorem At.introduced (h : W.At s pending e p) (names : List Token) :
    W.At s (names.map Token.lexeme ++ pending) e
      { p with context := p.context.introduced names } :=
  At.foldl (fun h name => (h.mark_false name).mark_true name) h names

end World

/-! ### What was visited inside of what was -/

structure World.KnowsLoop (W : World) (loop : Loop) (p : Setting) : Prop where
  condition : W.Knows (.expr loop.condition) p
  body : W.Knows (.stmt loop.body) { p with inLoop := true }
  branch : loop.body.after p.context = p.context
  increment : ∀ e ∈ loop.increment, W.Knows (.expr e) p

namespace World.Knows

variable {W : World} {p : Setting}

theorem exprs {part : Part} {es : List Expr} {q : Setting} (h : W.Knows part p)
    (hc : ∀ x ∈ Part.exprs es q, x ∈ part.children p) : ∀ e ∈ es, W.Knows (.expr e) q :=
  fun e he => h.child (hc _ (List.mem_map.2 ⟨e, he, rfl⟩))

theorem operands {e : Expr} (h : W.Knows (.expr e) p) : ∀ x ∈ e.operands, W.Knows (.expr x) p := by
  cases e with
  | lambda => exact nofun
  | _ => exact h.exprs fun _ hx => hx

/-- The branches of an `if` declare nothing, so they are visited in its setting. -/
theorem branches (hW : W.Sound) {condition : Expr} {whenTrue : Stmt} {whenFalse : Option Stmt}
    (h : W.Knows (.stmt (.conditional condition whenTrue whenFalse)) p) :
    ∀ x, x = whenTrue ∨ whenFalse = some x →
      W.Knows (.stmt x) p ∧ x.after p.context = p.context := by
  have hformed : Stmt.isFormed p.inLoop (.conditional condition whenTrue whenFalse) :=
    (h.visited rfl).formed hW
  cases whenFalse with
  | none =>
    simp only [Stmt.isFormed, Bool.and_eq_true] at hformed
    rintro x (rfl | hx)
    · exact ⟨h.child (by simp [Part.children]), x.after_of_isFormed hformed.2.1 hformed.2.2 _⟩
    · cases hx
  | some whenFalse =>
    simp only [Stmt.isFormed, Bool.and_eq_true] at hformed
    have htrue := whenTrue.after_of_isFormed hformed.2.1.1 hformed.2.1.2 p.context
    rintro x (rfl | hx)
    · exact ⟨h.child (by simp [Part.children]), htrue⟩
    · cases hx
      refine ⟨?_, whenFalse.after_of_isFormed hformed.2.2.1 hformed.2.2.2 _⟩
      have hsetting : p.after whenTrue = p := by rw [Setting.after, htrue]
      have hk : W.Knows (.stmt whenFalse) (p.after whenTrue) :=
        h.child (by simp [Part.children])
      rwa [hsetting] at hk

theorem loop (hW : W.Sound) {condition : Expr} {body : Stmt} {increment : Option Expr}
    (h : W.Knows (.stmt (.loop condition body increment)) p) :
    W.KnowsLoop ⟨condition, body, increment⟩ p := by
  have hformed : Stmt.isFormed p.inLoop (.loop condition body increment) :=
    (h.visited rfl).formed hW
  have hbody : body.isBranch ∧ body.isFormed true := by
    cases increment <;> simp only [Stmt.isFormed, Bool.and_eq_true] at hformed
    · exact hformed.2
    · exact hformed.2.1
  have hafter := body.after_of_isFormed hbody.1 hbody.2 p.context
  refine ⟨h.child (by simp [Part.children]), h.child (by simp [Part.children]), hafter, ?_⟩
  intro e he
  have hk : W.Knows (.expr e) (p.after body) := by
    refine h.child ?_
    cases he
    simp [Part.children, Part.exprs]
  rwa [Setting.after, hafter] at hk

end World.Knows

/-! ### Stacks -/

/-- Whether a statement in the setting may end so. -/
def Setting.Allows (p : Setting) : Signal → Prop
  | .normal => True
  | .exitLoop | .nextRound => p.inLoop
  | .returned v => p.context.body ≠ .none ∧ (p.context.body = .initializer → v = .nil)

/-- Whether the body of a function of the kind may end so. -/
def Body.Allows (kind : Body) : Signal → Prop
  | .normal => True
  | .exitLoop | .nextRound => False
  | .returned v => kind = .initializer → v = .nil

/-- What a frame waits for that will give a value in its turn: the expressions it has yet to
evaluate. Other frames have none. -/
def Frame.operands? : Frame → Option (List Expr)
  | .unary _ _ | .binaryRight _ _ | .position _ _ | .get _ | .setValue _ _ => some []
  | .construct _ | .leave => some []
  | .binaryLeft _ right | .logical _ right => some [right]
  | .ternary whenTrue whenFalse => some [whenTrue, whenFalse]
  | .callee _ todo => some todo
  | .arguments _ _ _ todo => some todo
  | .elements _ todo => some todo
  | .collection _ right => some [right]
  | .setObject _ value => some [value]
  | _ => none

inductive Wait where
  | value
  /-- The signal of a statement; behind it the walk has the setting. -/
  | statement (p : Setting)
  | body (kind : Body)

inductive Waits (W : World) (s : Scopes) : Wait → (e : Nat) → List Frame → Prop
  | nothing {e} : Waits W s .value e []
  | top {p e} (hloop : p.inLoop = false) (hbody : p.context.body = .none) :
      Waits W s (.statement p) e []
  -- frames that take a value
  | operands {e frame es stack} (hf : frame.operands? = some es)
      (hk : ∀ x ∈ es, ∃ p, W.Knows (.expr x) p ∧ W.At s [] e p) (hs : Waits W s .value e stack) :
      Waits W s .value e (frame :: stack)
  | assign {p e reference name value stack}
      (hv : W.Visited (.expr (.assign reference name value)) p) (hat : W.At s [] e p)
      (hs : Waits W s .value e stack) : Waits W s .value e (.assign reference name :: stack)
  | finish {p e frame stack} (hf : frame = .expression ∨ frame = .print) (hat : W.At s [] e p)
      (hs : Waits W s (.statement p) e stack) : Waits W s .value e (frame :: stack)
  | var {p q e name rest stack} (hk : ∀ x ∈ rest.filterMap Prod.snd, W.Knows (.expr x) p)
      (hat : W.At s [] e p)
      (hafter : W.At s (name.lexeme :: rest.map fun b => b.1.lexeme) e q)
      (hs : Waits W s (.statement q) e stack) : Waits W s .value e (.var name rest :: stack)
  | conditional {p e whenTrue whenFalse stack}
      (hk : ∀ x, x = whenTrue ∨ whenFalse = some x →
        W.Knows (.stmt x) p ∧ x.after p.context = p.context)
      (hat : W.At s [] e p) (hs : Waits W s (.statement p) e stack) :
      Waits W s .value e (.conditional whenTrue whenFalse :: stack)
  | condition {p e loop stack} (hl : W.KnowsLoop loop p) (hat : W.At s [] e p)
      (hs : Waits W s (.statement p) e stack) : Waits W s .value e (.condition loop :: stack)
  | increment {p e loop stack} (hl : W.KnowsLoop loop p) (hat : W.At s [] e p)
      (hs : Waits W s (.statement p) e stack) : Waits W s .value e (.increment loop :: stack)
  | returning {p e stack} (hbody : p.context.body ≠ .none) (hinit : p.context.body ≠ .initializer)
      (hs : Waits W s (.statement p) e stack) : Waits W s .value e (.returning :: stack)
  -- frames that take a signal
  | sequence {p e rest stack} (hk : W.Knows (.stmts rest) p)
      (hs : Waits W s (.statement (rest.foldl Setting.after p)) e stack) :
      Waits W s (.statement p) e (.sequence rest :: stack)
  | round {p e loop stack} (hl : W.KnowsLoop loop p) (hat : W.At s [] e p)
      (hs : Waits W s (.statement p) e stack) :
      Waits W s (.statement { p with inLoop := true }) e (.round loop :: stack)
  | restore {p q e outer stack} (hloop : q.inLoop = p.inLoop)
      (hbody : q.context.body = p.context.body) (hat : W.At s [] outer p)
      (hs : Waits W s (.statement p) outer stack) :
      Waits W s (.statement q) e (.restore outer :: stack)
  | leaveBody {q e outer kind stack} (hloop : q.inLoop = false) (hbody : q.context.body = kind)
      (hs : Waits W s (.body kind) outer stack) :
      Waits W s (.statement q) e (.restore outer :: stack)
  | body {kind e f stack} (hkind : kind ≠ .none) (hinit : f.isInitializer → kind = .initializer)
      (hs : Waits W s .value e stack) : Waits W s (.body kind) e (.body f :: stack)

/-- The faults of a statement whose signal leaves the program. -/
def Fault.isLeak : Fault → Bool
  | .runtime .returnAtTopLevel _ _ | .runtime .jumpAtTopLevel _ _ => true
  | _ => false

/-- What the machine attends to is something that the stack waits for. -/
def State.FocusFits (W : World) : State → Prop
  | ⟨.evaluate x, stack, m⟩ => ∃ p, W.Knows (.expr x) p ∧ W.At m.heap.scopes [] m.scope p ∧
      Waits W m.heap.scopes .value m.scope stack
  | ⟨.execute x, stack, m⟩ => ∃ p, W.Knows (.stmt x) p ∧ W.At m.heap.scopes [] m.scope p ∧
      Waits W m.heap.scopes (.statement (p.after x)) m.scope stack
  | ⟨.invoke _ _ _, stack, m⟩ => Waits W m.heap.scopes .value m.scope stack
  | ⟨.value _, stack, m⟩ => Waits W m.heap.scopes .value m.scope stack
  | ⟨.signal x, stack, m⟩ =>
    (∃ p, p.Allows x ∧ (x = .normal → W.At m.heap.scopes [] m.scope p) ∧
      Waits W m.heap.scopes (.statement p) m.scope stack) ∨
    ∃ kind, Body.Allows kind x ∧ Waits W m.heap.scopes (.body kind) m.scope stack
  | ⟨.fault f, _, _⟩ => f.isLeak = false

structure State.Fits (W : World) (st : State) : Prop where
  heap : W.HeapFits st.machine.heap
  focus : st.FocusFits W

namespace Waits

variable {W W' : World} {s s' : Scopes}

theorem mono {wait : Wait} {e : Nat} {stack : List Frame} (h : Waits W s wait e stack)
    (hW : W.Le W') (hs : s.Extends s') : Waits W' s' wait e stack := by
  have hloop {loop : Loop} {p : Setting} (h : W.KnowsLoop loop p) : W'.KnowsLoop loop p :=
    ⟨h.condition.mono hW, h.body.mono hW, h.branch, fun x hx => (h.increment x hx).mono hW⟩
  induction h with
  | nothing => exact .nothing
  | top hl hb => exact .top hl hb
  | operands hf hk _ ih =>
    refine .operands hf (fun x hx => ?_) ih
    obtain ⟨p, hp, hat⟩ := hk x hx
    exact ⟨p, hp.mono hW, hat.mono hW hs⟩
  | assign hv hat _ ih => exact .assign (hv.mono hW) (hat.mono hW hs) ih
  | finish hf hat _ ih => exact .finish hf (hat.mono hW hs) ih
  | var hk hat hafter _ ih =>
    exact .var (fun x hx => (hk x hx).mono hW) (hat.mono hW hs) (hafter.mono hW hs) ih
  | conditional hk hat _ ih =>
    exact .conditional (fun x hx => ⟨(hk x hx).1.mono hW, (hk x hx).2⟩) (hat.mono hW hs) ih
  | condition hl hat _ ih => exact .condition (hloop hl) (hat.mono hW hs) ih
  | increment hl hat _ ih => exact .increment (hloop hl) (hat.mono hW hs) ih
  | returning hb hi _ ih => exact .returning hb hi ih
  | sequence hk _ ih => exact .sequence (hk.mono hW) ih
  | round hl hat _ ih => exact .round (hloop hl) (hat.mono hW hs) ih
  | restore hl hb hat _ ih => exact .restore hl hb (hat.mono hW hs) ih
  | leaveBody hl hb _ ih => exact .leaveBody hl hb ih
  | body hk hi _ ih => exact .body hk hi ih

theorem frame {frame : Frame} {e : Nat} {stack : List Frame} (hs : Waits W s .value e stack)
    (hf : frame.operands? = some []) : Waits W s .value e (frame :: stack) :=
  .operands hf nofun hs

end Waits

end TreeWalk
