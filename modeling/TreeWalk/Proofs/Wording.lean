import TreeWalk.Proofs.Spelling
import TreeWalk.Proofs.Subrun

/-!
# The tokens of a machine

A machine gets all its tokens from the programs that it runs: a state whose functions, methods, frames
and focus are spelled with tokens of a kind steps to such a state (`State.Spelled.step`). So a fault of a
run carries the line of such a token.
-/

namespace TreeWalk

variable {P : Token → Prop}

/-! ### Functions, frames and states -/

/-- A token of the kind is on the line. -/
def Marks (P : Token → Prop) (line : Nat) : Prop :=
  ∃ t, P t ∧ t.line = line

theorem marks {t : Token} (ht : P t) : Marks P t.line :=
  ⟨t, ht, rfl⟩

/-- The fault carries the line of such a token, if it carries one. -/
def Fault.Spelled (P : Token → Prop) : Fault → Prop
  | .runtime _ line _ => Marks P line
  | .conversion _ _ => True

/-- What a call of the function needs. The keyword is pointed at only by an initializer that does not
find its instance. -/
structure Function.Spelled (P : Token → Prop) (f : Function) : Prop where
  parameters : ∀ x ∈ f.decl.parameters, x.Names P
  body : stmtsSpelled P f.decl.body
  keyword : f.isInitializer → P f.decl.keyword

structure Loop.Spelled (P : Token → Prop) (loop : Loop) : Prop where
  condition : loop.condition.Spelled P
  body : loop.body.Spelled P
  increment : ∀ e ∈ loop.increment, e.Spelled P

def Frame.Spelled (P : Token → Prop) : Frame → Prop
  | .unary operator _ | .binaryRight _ operator => P operator
  | .binaryLeft operator right | .logical operator right => P operator ∧ right.Spelled P
  | .ternary whenTrue whenFalse => whenTrue.Spelled P ∧ whenFalse.Spelled P
  | .assign _ name | .get name | .setValue _ name => name.Names P
  | .callee paren todo | .arguments _ paren _ todo => P paren ∧ exprsSpelled P todo
  | .elements _ todo => exprsSpelled P todo
  | .collection bracket right => P bracket ∧ right.Spelled P
  | .position _ bracket => P bracket
  | .setObject name value => name.Names P ∧ value.Spelled P
  | .var name rest => name.Names P ∧ bindingsSpelled P rest
  | .conditional whenTrue whenFalse => whenTrue.Spelled P ∧ ∀ s ∈ whenFalse, s.Spelled P
  | .condition loop | .increment loop | .round loop => loop.Spelled P
  | .sequence rest => stmtsSpelled P rest
  | .body f => f.Spelled P
  | .expression | .print | .returning | .restore _ | .construct _ | .leave => True

def Focus.Spelled (P : Token → Prop) : Focus → Prop
  | .evaluate e => e.Spelled P
  | .execute s => s.Spelled P
  | .invoke _ _ line => Marks P line
  | .fault f => f.Spelled P
  | .value _ | .signal _ => True

structure Heap.Spelled (P : Token → Prop) (h : Heap) : Prop where
  functions : ∀ r, (h.function r).Spelled P
  methods : ∀ r name f, (h.class_ r).methods.get? name = some f → f.Spelled P

structure State.Spelled (P : Token → Prop) (st : State) : Prop where
  heap : st.machine.heap.Spelled P
  stack : ∀ frame ∈ st.stack, frame.Spelled P
  focus : st.focus.Spelled P

/-- If there is a fault, it carries the line of such a token. -/
def Blames (P : Token → Prop) (outcome : Except Fault Value) : Prop :=
  ∀ f, outcome = .error f → f.Spelled P

theorem Blames.ok (v : Value) : Blames P (.ok v) := nofun

theorem Blames.error {f : Fault} (hf : f.Spelled P) : Blames P (.error f) := by
  rintro _ ⟨⟩
  exact hf

theorem Fault.Spelled.withTrace {f : Fault} (hf : f.Spelled P) (calls : List String) :
    (f.withTrace calls).Spelled P := by
  cases f with
  | conversion => exact hf
  | runtime cause line trace =>
    cases trace with
    | nil => cases calls <;> exact hf
    | cons => exact hf

/-! ### Operators -/

namespace Heap

variable (h : Heap)

theorem number_spelled {v : Value} {f : Fault} (hv : h.number v = .error f) : f.Spelled P := by
  unfold number at hv
  split at hv <;> cases hv
  trivial

theorem onNumbers_spelled (a b : Value) (f : Float → Float → Value) :
    Blames P (h.onNumbers a b f) := by
  unfold onNumbers numbers
  cases ha : h.number a with
  | error f => exact .error (h.number_spelled ha)
  | ok x =>
    cases hb : h.number b with
    | error f => exact .error (h.number_spelled hb)
    | ok y => exact .ok _

theorem unary_spelled {operator : Token} (ho : P operator) (fixity : Fixity) (v : Value) :
    Blames P (h.unary operator fixity v) := by
  unfold unary
  split
  · exact .ok _
  · split
    · next hn => exact .error (h.number_spelled hn)
    · exact .ok _
  · split
    · split
      · next hn => exact .error (h.number_spelled hn)
      · split <;> exact .ok _
    · exact .error (marks ho)

theorem binary_spelled (a : Value) {operator : Token} (ho : P operator) (b : Value) :
    Blames P (h.binary a operator b) := by
  have hplus : Blames P (h.plus a b) := by
    unfold plus
    split
    · exact .ok _
    · exact .error trivial
    · exact h.onNumbers_spelled _ _ _
  unfold binary
  split
  · exact .ok _
  · exact .ok _
  · exact hplus
  · exact h.onNumbers_spelled _ _ _
  · exact h.onNumbers_spelled _ _ _
  · exact h.onNumbers_spelled _ _ _
  · exact h.onNumbers_spelled _ _ _
  · exact h.onNumbers_spelled _ _ _
  · exact h.onNumbers_spelled _ _ _
  · exact h.onNumbers_spelled _ _ _
  · exact .error (marks ho)

theorem index_spelled (collection : Value) {bracket : Token} (hb : P bracket) (position : Value) :
    Blames P (h.index collection bracket position) := by
  unfold index
  split
  · split
    · exact .error (marks hb)
    · split
      · exact .ok _
      · exact .error (marks hb)
  · exact .error (marks hb)

end Heap

theorem Machine.lookUp_spelled (m : Machine) (reference : Nat) {name : Token} (hname : P name) :
    Blames P (m.lookUp reference name) := by
  unfold lookUp
  dsimp only
  split
  · exact .ok _
  · exact .error (marks hname)

theorem Builtin.apply_spelled (b : Builtin) (h : Heap) (time : Float) {line : Nat}
    (hline : Marks P line) (arguments : List Value) :
    Blames P (b.apply h time line arguments).1 := by
  cases b with
  | clock | type | bool | string | array => exact .ok _
  | int | float =>
    simp only [apply]
    split
    · exact .ok _
    · exact .error trivial
  | len =>
    simp only [apply]
    split
    · exact .ok _
    · exact .error hline

/-! ### The heap -/

namespace Heap.Spelled

variable {h h' : Heap}

theorem congr (hh : h.Spelled P) (hfunctions : h'.functions = h.functions)
    (hclasses : h'.classes = h.classes) : h'.Spelled P := by
  constructor
  · intro r
    rw [function, hfunctions]
    exact hh.functions r
  · intro r name f hf
    rw [class_, hclasses] at hf
    exact hh.methods r name f hf

theorem apply (hh : h.Spelled P) (b : Builtin) (time : Float) (line : Nat)
    (arguments : List Value) : (b.apply h time line arguments).2.Spelled P := by
  rcases b.heap_apply h time line arguments with heq | heq <;> rw [heq]
  · exact hh
  · exact hh.congr rfl rfl

theorem newFunction {f : Function} (hh : h.Spelled P) (hf : f.Spelled P) :
    (h.newFunction f).2.Spelled P := by
  refine ⟨fun r => ?_, hh.methods⟩
  rw [function_newFunction]
  split
  · exact hf
  · exact hh.functions r

theorem newClass {c : Class} (hh : h.Spelled P)
    (hc : ∀ name f, c.methods.get? name = some f → f.Spelled P) : (h.newClass c).2.Spelled P := by
  refine ⟨hh.functions, fun r name f hm => ?_⟩
  rw [class_newClass] at hm
  split at hm
  · exact hc name f hm
  · exact hh.methods r name f hm

theorem bindParameters (hh : h.Spelled P) (e : Nat) (parameters : List Token)
    (arguments : List Value) : (State.bindParameters h e parameters arguments).Spelled P := by
  rw [State.bindParameters]
  generalize parameters.zip arguments = pairs
  induction pairs generalizing h with
  | nil => exact hh
  | cons p pairs ih => exact ih (hh.congr rfl rfl)

end Heap.Spelled

/-- A function of a declaration, whether it is an initializer or not. -/
theorem FunctionDecl.Spelled.function {decl : FunctionDecl} (h : decl.Spelled P) (e : Nat)
    (isInitializer : Bool) : Function.Spelled P ⟨decl, e, isInitializer⟩ := by
  obtain ⟨-, hparameters, hbody, hkeyword⟩ := FunctionDecl.spelled_iff.1 h
  exact ⟨hparameters, hbody, fun _ => hkeyword⟩

/-- A bound method is spelled as the method is. -/
theorem Function.Spelled.bound {f : Function} (h : f.Spelled P) (heap : Heap) (r : Nat) :
    (heap.bindMethod f r).1.Spelled P :=
  ⟨h.parameters, h.body, h.keyword⟩

namespace State

variable {stack : List Frame} {m : Machine}

/-! ### Expressions -/

theorem spelled_settle {outcome : Except Fault Value} (hh : m.heap.Spelled P)
    (hs : ∀ frame ∈ stack, frame.Spelled P) (ho : Blames P outcome) :
    (settle outcome stack m).Spelled P := by
  cases outcome with
  | ok v => exact ⟨hh, hs, trivial⟩
  | error f => exact ⟨hh, hs, ho f rfl⟩

/-- A state attends to something while one more frame waits. -/
theorem spelled_push {focus : Focus} {frame : Frame} (hh : m.heap.Spelled P)
    (hs : ∀ frame ∈ stack, frame.Spelled P) (hfocus : focus.Spelled P) (hframe : frame.Spelled P) :
    State.Spelled P ⟨focus, frame :: stack, m⟩ :=
  ⟨hh, List.forall_mem_cons.2 ⟨hframe, hs⟩, hfocus⟩

theorem spelled_stepVariable {operator name : Token} (hh : m.heap.Spelled P)
    (hs : ∀ frame ∈ stack, frame.Spelled P) (ho : P operator) (hname : name.Names P) (size : Float)
    (fixity : Fixity) : (stepVariable operator size name fixity stack m).Spelled P := by
  unfold stepVariable
  split
  · exact ⟨hh, hs, marks hname.1⟩
  · split
    · exact ⟨hh, hs, marks hname.1⟩
    · split
      · next hn => exact ⟨hh, hs, m.heap.number_spelled hn⟩
      · exact spelled_settle (hh.congr rfl rfl) hs (m.heap.unary_spelled ho _ _)

theorem spelled_argumentsFrom {callee : Value} {paren : Token} {done : List Value}
    {todo : List Expr} (hh : m.heap.Spelled P) (hs : ∀ frame ∈ stack, frame.Spelled P)
    (hparen : P paren) (htodo : exprsSpelled P todo) :
    (argumentsFrom callee paren done todo stack m).Spelled P := by
  cases todo with
  | nil => exact ⟨hh, hs, marks hparen⟩
  | cons x todo => exact spelled_push hh hs htodo.1 ⟨hparen, htodo.2⟩

theorem spelled_elementsFrom {done : List Value} {todo : List Expr} (hh : m.heap.Spelled P)
    (hs : ∀ frame ∈ stack, frame.Spelled P) (htodo : exprsSpelled P todo) :
    (elementsFrom done todo stack m).Spelled P := by
  cases todo with
  | nil => exact ⟨hh.congr rfl rfl, hs, trivial⟩
  | cons x todo => exact spelled_push hh hs htodo.1 htodo.2

theorem spelled_evaluate {e : Expr} (hh : m.heap.Spelled P)
    (hs : ∀ frame ∈ stack, frame.Spelled P) (he : e.Spelled P) :
    (evaluate e stack m).Spelled P := by
  cases e with
  | literal value => exact ⟨hh, hs, trivial⟩
  | group inner => exact ⟨hh, hs, he⟩
  | unary operator operand fixity =>
    obtain ⟨ho, hoperand⟩ := he
    show (unary operator operand fixity stack m).Spelled P
    unfold unary
    split
    · exact spelled_stepVariable hh hs ho hoperand _ _
    · exact spelled_push hh hs hoperand ho
  | binary left operator right | logical left operator right =>
    obtain ⟨ho, hleft, hright⟩ := he
    exact spelled_push hh hs hleft ⟨ho, hright⟩
  | ternary condition whenTrue whenFalse => exact spelled_push hh hs he.1 he.2
  | «variable» reference name => exact spelled_settle hh hs (m.lookUp_spelled _ he.1)
  | this reference keyword => exact spelled_settle hh hs (m.lookUp_spelled _ he.1)
  | assign reference name value => exact spelled_push hh hs he.2 he.1
  | call callee paren arguments =>
    obtain ⟨hparen, hcallee, harguments⟩ := he
    exact spelled_push hh hs hcallee ⟨hparen, harguments⟩
  | array bracket elements => exact spelled_elementsFrom hh hs he.2
  | index collection bracket position =>
    obtain ⟨hbracket, hcollection, hposition⟩ := he
    exact spelled_push hh hs hcollection ⟨hbracket, hposition⟩
  | get object name => exact spelled_push hh hs he.2 he.1
  | set object name value =>
    obtain ⟨hname, hobject, hvalue⟩ := he
    exact spelled_push hh hs hobject ⟨hname, hvalue⟩
  | lambda decl =>
    have hdecl : decl.Spelled P := he
    exact ⟨hh.newFunction (hdecl.function m.scope false), hs, trivial⟩

/-! ### Statements -/

theorem spelled_runStmts {ss : List Stmt} (hh : m.heap.Spelled P)
    (hs : ∀ frame ∈ stack, frame.Spelled P) (hss : stmtsSpelled P ss) :
    (runStmts ss stack m).Spelled P := by
  cases ss with
  | nil => exact ⟨hh, hs, trivial⟩
  | cons x rest => exact spelled_push hh hs hss.1 hss.2

theorem spelled_variablesFrom {bs : List (Token × Option Expr)} (hh : m.heap.Spelled P)
    (hs : ∀ frame ∈ stack, frame.Spelled P) (hbs : bindingsSpelled P bs) :
    (variablesFrom bs stack m).Spelled P := by
  induction bs generalizing m with
  | nil => exact ⟨hh, hs, trivial⟩
  | cons b rest ih =>
    obtain ⟨name, _ | value⟩ := b
    · obtain ⟨-, hrest⟩ := hbs
      exact ih (hh.congr rfl rfl) hrest
    · obtain ⟨hname, hvalue, hrest⟩ := hbs
      exact spelled_push hh hs hvalue ⟨hname, hrest⟩

theorem spelled_execute {x : Stmt} (hh : m.heap.Spelled P)
    (hs : ∀ frame ∈ stack, frame.Spelled P) (hx : x.Spelled P) : (execute x stack m).Spelled P := by
  cases x with
  | expression value | print value => exact spelled_push hh hs hx trivial
  | var bindings => exact spelled_variablesFrom hh hs hx
  | function decl =>
    have hdecl : decl.Spelled P := hx
    exact ⟨(hh.newFunction (hdecl.function m.scope false)).congr rfl rfl, hs, trivial⟩
  | classDecl name methods =>
    refine ⟨(hh.newClass fun x f hf => ?_).congr rfl rfl, hs, trivial⟩
    obtain ⟨decl, hm, rfl⟩ := get?_methodTable hf
    exact (methodsSpelled_iff.1 hx.2 decl hm).function _ _
  | block body =>
    exact spelled_runStmts (hh.congr rfl rfl) (List.forall_mem_cons.2 ⟨trivial, hs⟩) hx
  | conditional condition whenTrue whenFalse =>
    cases whenFalse with
    | none => exact spelled_push hh hs hx.1 ⟨hx.2, nofun⟩
    | some whenFalse =>
      obtain ⟨hcondition, htrue, hfalse⟩ := hx
      refine spelled_push hh hs hcondition ⟨htrue, ?_⟩
      rintro _ ⟨⟩
      exact hfalse
  | loop condition body increment =>
    cases increment with
    | none => exact spelled_push hh hs hx.1 ⟨hx.1, hx.2, nofun⟩
    | some increment =>
      obtain ⟨hcondition, hbody, hincrement⟩ := hx
      refine spelled_push hh hs hcondition ⟨hcondition, hbody, ?_⟩
      rintro _ ⟨⟩
      exact hincrement
  | returning keyword value =>
    cases value with
    | none => exact ⟨hh, hs, trivial⟩
    | some value => exact spelled_push hh hs hx.2 trivial
  | breaking | continuing => exact ⟨hh, hs, trivial⟩

/-! ### Calls and properties -/

theorem spelled_enterBody {f : Function} {arguments : List Value} (hh : m.heap.Spelled P)
    (hs : ∀ frame ∈ stack, frame.Spelled P) (hf : f.Spelled P) :
    (enterBody f arguments stack m).Spelled P := by
  have hnew : (m.heap.newScope f.scope).2.Spelled P := hh.congr rfl rfl
  have hheap := hnew.bindParameters (m.heap.newScope f.scope).1 f.decl.parameters arguments
  refine spelled_runStmts (hheap.congr rfl rfl) ?_ hf.body
  exact List.forall_mem_cons.2 ⟨trivial, List.forall_mem_cons.2 ⟨hf, hs⟩⟩

theorem spelled_instantiate {r : Nat} {arguments : List Value} (hh : m.heap.Spelled P)
    (hs : ∀ frame ∈ stack, frame.Spelled P) : (instantiate r arguments stack m).Spelled P := by
  unfold instantiate
  dsimp only
  split
  · exact ⟨hh.congr rfl rfl, hs, trivial⟩
  · next f hf =>
    have hmethod : f.Spelled P := hh.methods r _ f hf
    exact spelled_enterBody (hh.congr rfl rfl) (List.forall_mem_cons.2 ⟨trivial, hs⟩)
      (hmethod.bound _ _)

theorem spelled_enterCallee {callee : Value} {arguments : List Value} {line : Nat}
    (hh : m.heap.Spelled P) (hs : ∀ frame ∈ stack, frame.Spelled P) (hline : Marks P line) :
    (enterCallee callee arguments line stack m).Spelled P := by
  cases callee with
  | builtin b => exact spelled_settle (hh.apply b _ _ _) hs (b.apply_spelled _ _ hline _)
  | function r => exact spelled_enterBody hh hs (hh.functions r)
  | class_ r => exact spelled_instantiate hh hs
  | _ => exact ⟨hh, hs, hline⟩

theorem spelled_invoke {callee : Value} {arguments : List Value} {line : Nat}
    (hh : m.heap.Spelled P) (hs : ∀ frame ∈ stack, frame.Spelled P) (hline : Marks P line) :
    (invoke callee arguments line stack m).Spelled P := by
  unfold invoke
  split
  · exact ⟨hh, hs, hline⟩
  · split
    · exact ⟨hh, hs, hline⟩
    · split
      · have hfault : Fault.Spelled P (.onLine line .stackOverflow) := hline
        exact ⟨hh, hs, hfault.withTrace _⟩
      · exact spelled_enterCallee (hh.congr rfl rfl) (List.forall_mem_cons.2 ⟨trivial, hs⟩) hline

theorem spelled_property {r : Nat} {name : Token} (hh : m.heap.Spelled P)
    (hs : ∀ frame ∈ stack, frame.Spelled P) (hname : name.Names P) :
    (property r name stack m).Spelled P := by
  unfold property
  split
  · exact ⟨hh, hs, trivial⟩
  · split
    · next f hf =>
      have hmethod : f.Spelled P := hh.methods _ _ f hf
      have hbound : (m.heap.bindMethod f r).2.Spelled P := hh.congr rfl rfl
      exact ⟨hbound.newFunction (hmethod.bound m.heap r), hs, trivial⟩
    · exact ⟨hh, hs, marks hname.1⟩

/-! ### Outcomes -/

theorem spelled_nextRound {loop : Loop} (hh : m.heap.Spelled P)
    (hs : ∀ frame ∈ stack, frame.Spelled P) (hl : loop.Spelled P) :
    (nextRound loop stack m).Spelled P := by
  unfold nextRound
  split
  · next e he => exact spelled_push hh hs (hl.increment e he) hl
  · exact spelled_push hh hs hl.condition hl

theorem spelled_giveValue {v : Value} {frame : Frame} (hh : m.heap.Spelled P)
    (hs : ∀ frame ∈ stack, frame.Spelled P) (hf : frame.Spelled P) :
    (giveValue v frame stack m).Spelled P := by
  cases frame with
  | unary operator fixity => exact spelled_settle hh hs (m.heap.unary_spelled hf _ _)
  | binaryLeft operator right => exact spelled_push hh hs hf.2 hf.1
  | binaryRight left operator => exact spelled_settle hh hs (m.heap.binary_spelled _ hf _)
  | logical operator right =>
    simp only [giveValue]
    split
    · exact ⟨hh, hs, trivial⟩
    · exact ⟨hh, hs, hf.2⟩
  | ternary whenTrue whenFalse =>
    simp only [giveValue]
    split
    · exact ⟨hh, hs, hf.1⟩
    · exact ⟨hh, hs, hf.2⟩
  | assign reference name =>
    simp only [giveValue]
    split
    · exact ⟨hh.congr rfl rfl, hs, trivial⟩
    · exact ⟨hh, hs, marks hf.1⟩
  | callee paren arguments =>
    simp only [giveValue]
    split
    · exact spelled_argumentsFrom hh hs hf.1 hf.2
    · exact ⟨hh, hs, marks hf.1⟩
  | arguments callee paren done todo => exact spelled_argumentsFrom hh hs hf.1 hf.2
  | elements done todo => exact spelled_elementsFrom hh hs hf
  | collection bracket position => exact spelled_push hh hs hf.2 hf.1
  | position collection bracket => exact spelled_settle hh hs (m.heap.index_spelled _ hf _)
  | get name =>
    simp only [giveValue]
    split
    · exact spelled_property hh hs hf
    · exact ⟨hh, hs, marks hf.1⟩
  | setObject name value =>
    simp only [giveValue]
    split
    · exact spelled_push hh hs hf.2 hf.1
    · exact ⟨hh, hs, marks hf.1.1⟩
  | setValue target name => exact ⟨hh.congr rfl rfl, hs, trivial⟩
  | var name rest => exact spelled_variablesFrom (hh.congr rfl rfl) hs hf.2
  | conditional whenTrue whenFalse =>
    simp only [giveValue]
    split
    · exact ⟨hh, hs, hf.1⟩
    · split
      · next x => exact ⟨hh, hs, hf.2 x rfl⟩
      · exact ⟨hh, hs, trivial⟩
  | condition loop =>
    have hl : loop.Spelled P := hf
    simp only [giveValue]
    split
    · exact spelled_push hh hs hl.body hf
    · exact ⟨hh, hs, trivial⟩
  | increment loop =>
    have hl : loop.Spelled P := hf
    exact spelled_push hh hs hl.condition hf
  | _ => exact ⟨hh, hs, trivial⟩

theorem bodyValue_spelled {f : Function} (hf : f.Spelled P) (x : Signal) (m : Machine) :
    Blames P (bodyValue f x m) := by
  unfold bodyValue
  split
  · next hinit =>
    split
    · exact .ok _
    · exact .error (marks (hf.keyword hinit))
  · split <;> exact .ok _

theorem spelled_giveSignal {x : Signal} {frame : Frame} (hh : m.heap.Spelled P)
    (hs : ∀ frame ∈ stack, frame.Spelled P) (hf : frame.Spelled P) :
    (giveSignal x frame stack m).Spelled P := by
  cases frame with
  | sequence rest =>
    simp only [giveSignal]
    split
    · exact spelled_runStmts hh hs hf
    · exact ⟨hh, hs, trivial⟩
  | round loop =>
    simp only [giveSignal]
    split
    · exact ⟨hh, hs, trivial⟩
    · exact ⟨hh, hs, trivial⟩
    · exact spelled_nextRound hh hs hf
    · exact spelled_nextRound hh hs hf
  | body f => exact spelled_settle hh hs (bodyValue_spelled hf x m)
  | _ => exact ⟨hh, hs, trivial⟩

theorem spelled_giveFault {f : Fault} {frame : Frame} (hh : m.heap.Spelled P)
    (hs : ∀ frame ∈ stack, frame.Spelled P) (hf : f.Spelled P) :
    (giveFault f frame stack m).Spelled P := by
  unfold giveFault
  split
  · exact ⟨hh, hs, hf⟩
  · exact ⟨hh, hs, hf.withTrace _⟩
  · exact ⟨hh, hs, hf⟩

/-! ### Steps and runs -/

theorem Spelled.step {st : State} (h : st.Spelled P) : st.step.Spelled P := by
  obtain ⟨focus, stack, m⟩ := st
  obtain ⟨hh, hs, hfocus⟩ := h
  cases focus with
  | evaluate e => exact spelled_evaluate hh hs hfocus
  | execute x => exact spelled_execute hh hs hfocus
  | invoke callee arguments line => exact spelled_invoke hh hs hfocus
  | value v =>
    cases stack with
    | nil => exact ⟨hh, hs, trivial⟩
    | cons frame stack =>
      obtain ⟨hframe, hs⟩ := List.forall_mem_cons.1 hs
      exact spelled_giveValue hh hs hframe
  | signal x =>
    cases stack with
    | nil => exact ⟨hh, hs, trivial⟩
    | cons frame stack =>
      obtain ⟨hframe, hs⟩ := List.forall_mem_cons.1 hs
      exact spelled_giveSignal hh hs hframe
  | fault f =>
    cases stack with
    | nil => exact ⟨hh, hs, hfocus⟩
    | cons frame stack => exact spelled_giveFault hh (List.forall_mem_cons.1 hs).2 hfocus

theorem Spelled.steps {st : State} (h : st.Spelled P) (count : Nat) : (st.steps count).Spelled P := by
  induction count generalizing st with
  | zero => exact h
  | succ count ih => exact ih h.step

theorem Spelled.run {st : State} {limit : Nat} {ending : Ending} (h : st.Spelled P)
    (hrun : st.run limit = some (ending, m)) :
    m.heap.Spelled P ∧ ∀ f, ending = .fault f → f.Spelled P := by
  obtain ⟨hending, rfl⟩ := steps_of_run hrun
  have hsteps := h.steps limit
  refine ⟨hsteps.heap, ?_⟩
  rintro f rfl
  rw [ending?_eq_some.1 hending] at hsteps
  exact hsteps.focus

end State

/-! ### Programs -/

theorem Stmt.Spelled.begins {x : Stmt} {m : Machine} (hx : x.Spelled P) (hh : m.heap.Spelled P) :
    (x.begins m).Spelled P := by
  cases x with
  | expression value =>
    have hvalue : value.Spelled P := hx
    exact ⟨hh, List.forall_mem_nil _, hvalue⟩
  | _ => exact ⟨hh, List.forall_mem_nil _, hx⟩

/-- A stray signal is reported as a leak. -/
theorem Machine.isLeak_of_signalFault? {x : Stmt} {y : Signal} {f : Fault}
    (h : signalFault? x y = some f) : f.isLeak = true := by
  cases y <;> cases h <;> rfl

namespace Machine

variable {m m' : Machine} {limit : Nat}

theorem spelled_initial (time : Float) : (initial time).heap.Spelled P := by
  refine initial_heap time ⟨fun r => ⟨nofun, trivial, nofun⟩, nofun⟩ ?_
  exact fun h b hh => hh.congr rfl rfl

theorem spelled_interpretOne {x : Stmt} {outcome : Except Fault (Option Value)}
    (hh : m.heap.Spelled P) (hx : x.Spelled P)
    (h : m.interpretOne limit x = some (outcome, m')) :
    m'.heap.Spelled P ∧ ∀ f, outcome = .error f → f.isLeak = false → f.Spelled P := by
  obtain ⟨ending, hrun, hfault, -⟩ := run_of_interpretOne h
  obtain ⟨hheap, hspelled⟩ := (hx.begins hh).run hrun
  refine ⟨hheap, fun f hf hleak => ?_⟩
  rcases hfault f hf with hending | ⟨y, -, hy⟩
  · exact hspelled f hending
  · rw [isLeak_of_signalFault? hy] at hleak
    cases hleak

/-- A fault that ends a program carries the line of one of its tokens, or it is a stray signal. -/
theorem spelled_interpret {program : List Stmt} {outcome : Except Fault (List (Option Value))}
    (hh : m.heap.Spelled P) (hp : stmtsSpelled P program)
    (h : m.interpret limit program = some (outcome, m')) :
    m'.heap.Spelled P ∧ ∀ f, outcome = .error f → f.isLeak = false → f.Spelled P := by
  induction program generalizing m m' outcome with
  | nil =>
    cases h
    exact ⟨hh, nofun⟩
  | cons x rest ih =>
    obtain ⟨hx, hrest⟩ := hp
    rw [interpret] at h
    cases hone : m.interpretOne limit x with
    | none =>
      rw [hone] at h
      cases h
    | some r =>
      obtain ⟨first, m₁⟩ := r
      obtain ⟨hheap, hfirst⟩ := spelled_interpretOne hh hx hone
      rw [hone] at h
      cases first with
      | error f =>
        cases h
        refine ⟨hheap, fun f' hf => hfirst f' ?_⟩
        cases hf
        rfl
      | ok v =>
        dsimp only at h
        cases hmore : m₁.interpret limit rest with
        | none =>
          rw [hmore] at h
          cases h
        | some r =>
          obtain ⟨more, m₂⟩ := r
          obtain ⟨hheap', hfault⟩ := ih hheap hrest hmore
          rw [hmore] at h
          cases h
          refine ⟨hheap', fun f hf => hfault f ?_⟩
          cases more with
          | error f' => cases hf; rfl
          | ok values => cases hf

end Machine

end TreeWalk
