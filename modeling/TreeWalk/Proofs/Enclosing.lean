import TreeWalk.Proofs.Wording

/-!
# What is around the scope at hand

Calls, blocks and bodies make scopes, and a scope that was made stays where it is. Only binding a method
gives `this` a value, and it does so in a scope that it makes: no name of a program is spelled like
`this` (`Token.Worded`), so neither a declaration nor an assignment nor `++` reaches it. Hence scopes keep
their `this` for good (`Scopes.Keeps`), and while the body of a function is under way, the scope at hand
lies in the scope of the function, with no other `this` on the way out to it (`Bodies.within`).
-/

namespace TreeWalk

/-- No identifier is spelled like `this`, and the keyword is. -/
def Token.Worded (t : Token) : Prop :=
  (t.isIdentifier → t.lexeme ≠ "this") ∧ (t.isKeyword .this_ → t.lexeme = "this")

theorem Token.Names.ne_this {name : Token} (h : name.Names Worded) : name.lexeme ≠ "this" :=
  h.1.1 h.2

theorem FunctionDecl.Spelled.label_ne_this {decl : FunctionDecl} (h : decl.Spelled Token.Worded) :
    decl.label ≠ "this" := by
  have hname := (FunctionDecl.spelled_iff.1 h).1
  unfold label
  split
  · next name heq => exact (hname name heq).ne_this
  · decide

namespace Scopes

variable {s s' s'' : Scopes} {e e' e'' : Nat} {x : String}

/-! ### Scopes that stay as they are -/

/-- Scopes were added, and the others keep what is around them and their `this`. -/
structure Keeps (s s' : Scopes) : Prop where
  le : s.nextScope ≤ s'.nextScope
  enclosing : ∀ e < s.nextScope, (s'.cell e).enclosing = (s.cell e).enclosing
  this : ∀ e < s.nextScope, s'.here? e "this" = s.here? e "this"

/-- None of the scopes that were added holds `this`. -/
structure Spares (s s' : Scopes) : Prop extends Keeps s s' where
  fresh : ∀ e, s.nextScope ≤ e → s'.here? e "this" = none

theorem Keeps.trans (h : s.Keeps s') (h' : s'.Keeps s'') : s.Keeps s'' where
  le := Nat.le_trans h.le h'.le
  enclosing e he := (h'.enclosing e (Nat.lt_of_lt_of_le he h.le)).trans (h.enclosing e he)
  this e he := (h'.this e (Nat.lt_of_lt_of_le he h.le)).trans (h.this e he)

theorem Spares.refl (s : Scopes) : s.Spares s :=
  ⟨⟨Nat.le_refl _, fun _ _ => rfl, fun _ _ => rfl⟩, fun _ => here?_of_le⟩

theorem Spares.trans (h : s.Spares s') (h' : s'.Spares s'') : s.Spares s'' := by
  refine ⟨h.toKeeps.trans h'.toKeeps, fun e he => ?_⟩
  rcases Nat.lt_or_ge e s'.nextScope with hlt | hge
  · rw [h'.this e hlt]
    exact h.fresh e he
  · exact h'.fresh e hge

theorem spares_define (hx : x ≠ "this") (s : Scopes) (e : Nat) (v : Value) :
    s.Spares (s.define e x v) := by
  refine ⟨⟨?_, fun e' _ => s.enclosing_define e x v e', fun e' _ => s.here?_define_ne (.inr hx) v⟩, ?_⟩
  · exact Nat.le_of_eq (s.nextScope_define e x v).symm
  · intro e' he
    rw [here?_define_ne _ (.inr hx)]
    exact here?_of_le he

theorem spares_child (s : Scopes) (outer : Nat) : s.Spares (s.child outer) := by
  refine ⟨⟨?_, fun e he => ?_, fun e _ => s.here?_child outer e _⟩, fun e he => ?_⟩
  · rw [nextScope_child]
    exact Nat.le_succ _
  · rw [cell_child, if_neg (Nat.ne_of_lt he)]
  · rw [here?_child]
    exact here?_of_le he

/-! ### The way out -/

/-- `e'` is `e` or around it, and no scope on the way out to it holds `this`. -/
inductive Within (s : Scopes) : (e e' : Nat) → Prop
  | here {e : Nat} : Within s e e
  | out {e outer e' : Nat} (hthis : s.here? e "this" = none)
      (houter : (s.cell e).enclosing = some outer) (h : Within s outer e') : Within s e e'

theorem Within.trans (h : s.Within e e') (h' : s.Within e' e'') : s.Within e e'' := by
  induction h with
  | here => exact h'
  | out hthis houter _ ih => exact .out hthis houter (ih h')

theorem Within.mono (h : s.Within e e') (hs : s.Keeps s') : s'.Within e e' := by
  induction h with
  | here => exact .here
  | out hthis houter _ ih =>
    have hlt := lt_of_enclosing houter
    exact .out ((hs.this _ hlt).trans hthis) ((hs.enclosing _ hlt).trans houter) ih

/-- Right inside of a scope. -/
theorem Within.child (s : Scopes) (outer : Nat) : (s.child outer).Within s.nextScope outer := by
  refine .out ?_ ?_ .here
  · rw [here?_child]
    exact here?_of_le (Nat.le_refl _)
  · rw [cell_child, if_pos rfl]

end Scopes

/-! ### Bodies under way -/

/-- Whether the frame neither restores a scope nor waits for the end of a body. -/
def Frame.isPlain : Frame → Bool
  | .restore _ | .body _ => false
  | _ => true

/-- The function whose body is under way. -/
def activeFunction? : List Frame → Option Function
  | [] => none
  | .body f :: _ => some f
  | _ :: stack => activeFunction? stack

/-- A stack for a machine in scope `e`. What is in a block lies inside of the scope around it, and what
is in a body inside of the scope of the function. -/
inductive Bodies (s : Scopes) : (e : Nat) → List Frame → Prop
  | script {e} : Bodies s e []
  | frame {e frame stack} (hplain : frame.isPlain) (h : Bodies s e stack) :
      Bodies s e (frame :: stack)
  | block {e outer stack} (hin : s.Within e outer) (h : Bodies s outer stack) :
      Bodies s e (.restore outer :: stack)
  | body {e outer f stack} (hin : s.Within e f.scope) (h : Bodies s outer stack) :
      Bodies s e (.restore outer :: .body f :: stack)

namespace Bodies

variable {s s' : Scopes} {e : Nat} {stack : List Frame} {frame : Frame}

theorem mono (h : Bodies s e stack) (hs : s.Keeps s') : Bodies s' e stack := by
  induction h with
  | script => exact .script
  | frame hplain _ ih => exact .frame hplain ih
  | block hin _ ih => exact .block (hin.mono hs) ih
  | body hin _ ih => exact .body (hin.mono hs) ih

theorem pop (h : Bodies s e (frame :: stack)) (hplain : frame.isPlain) : Bodies s e stack := by
  cases h with
  | frame _ h => exact h
  | block | body => cases hplain

/-- The scope at hand lies inside of the scope of the function whose body is under way. -/
theorem within {f : Function} (h : Bodies s e stack) (hf : activeFunction? stack = some f) :
    s.Within e f.scope := by
  induction h with
  | script => cases hf
  | @frame e frame stack hplain _ ih =>
    refine ih ?_
    cases frame with
    | body | restore => cases hplain
    | _ => exact hf
  | block hin _ ih => exact hin.trans (ih hf)
  | body hin =>
    cases hf
    exact hin

end Bodies

namespace Scopes

/-! ### Binding `this` -/

variable {s : Scopes} {e : Nat}

theorem here?_bind (s : Scopes) (outer : Nat) (v : Value) :
    ((s.child outer).define s.nextScope "this" v).here? s.nextScope "this" = some v := by
  refine here?_define_self ?_ _ v
  rw [nextScope_child]
  exact Nat.lt_succ_self _

theorem here?_bind_ne (he : e ≠ s.nextScope) (outer : Nat) (v : Value) :
    ((s.child outer).define s.nextScope "this" v).here? e "this" = s.here? e "this" := by
  rw [here?_define_ne _ (.inl he.symm)]
  exact s.here?_child outer e "this"

theorem keeps_bind (s : Scopes) (outer : Nat) (v : Value) :
    s.Keeps ((s.child outer).define s.nextScope "this" v) := by
  refine ⟨?_, fun e he => ?_, fun e he => here?_bind_ne (Nat.ne_of_lt he) outer v⟩
  · rw [nextScope_define, nextScope_child]
    exact Nat.le_succ _
  · rw [enclosing_define]
    exact (s.spares_child outer).enclosing e he

end Scopes

namespace State

variable {sites : List Site} {stack : List Frame} {m m' : Machine}

/-- The state goes on where `stack` and `m` were. A new scope that holds `this` is the first one made,
and it was made for a method. -/
structure Resumes (sites : List Site) (stack : List Frame) (m : Machine) (st : State) : Prop where
  keeps : m.heap.scopes.Keeps st.machine.heap.scopes
  bound : ∀ e v, m.heap.scopes.nextScope ≤ e → st.machine.heap.scopes.here? e "this" = some v →
    e = m.heap.scopes.nextScope ∧ ∃ decl more, sites = .bound decl :: more
  bodies : Bodies m.heap.scopes m.scope stack →
    Bodies st.machine.heap.scopes st.machine.scope st.stack

theorem resumes_of_spares {st : State} (hs : m.heap.scopes.Spares st.machine.heap.scopes)
    (hb : Bodies m.heap.scopes m.scope stack →
      Bodies st.machine.heap.scopes st.machine.scope st.stack) : Resumes sites stack m st := by
  refine ⟨hs.toKeeps, fun e v he hv => ?_, hb⟩
  rw [hs.fresh e he] at hv
  cases hv

theorem resumes_mk {focus : Focus} (hs : m.heap.scopes.Spares m'.heap.scopes)
    (hscope : m'.scope = m.scope) : Resumes sites stack m ⟨focus, stack, m'⟩ := by
  refine resumes_of_spares hs fun h => ?_
  show Bodies m'.heap.scopes m'.scope stack
  rw [hscope]
  exact h.mono hs.toKeeps

theorem resumes_push {focus : Focus} {frame : Frame} (hplain : frame.isPlain)
    (hs : m.heap.scopes.Spares m'.heap.scopes) (hscope : m'.scope = m.scope) :
    Resumes sites stack m ⟨focus, frame :: stack, m'⟩ := by
  refine resumes_of_spares hs fun h => .frame hplain ?_
  show Bodies m'.heap.scopes m'.scope stack
  rw [hscope]
  exact h.mono hs.toKeeps

theorem resumes_settle (outcome : Except Fault Value) (hs : m.heap.scopes.Spares m'.heap.scopes)
    (hscope : m'.scope = m.scope) : Resumes sites stack m (settle outcome stack m') := by
  cases outcome <;> exact resumes_mk hs hscope

theorem machine_runStmts (ss : List Stmt) : (runStmts ss stack m).machine = m := by
  cases ss <;> rfl

theorem bodies_runStmts (ss : List Stmt) (h : Bodies m.heap.scopes m.scope stack) :
    Bodies (runStmts ss stack m).machine.heap.scopes (runStmts ss stack m).machine.scope
      (runStmts ss stack m).stack := by
  cases ss with
  | nil => exact h
  | cons x rest => exact .frame rfl h

theorem resumes_runStmts (ss : List Stmt) : Resumes sites stack m (runStmts ss stack m) := by
  refine resumes_of_spares ?_ (bodies_runStmts ss)
  rw [machine_runStmts]
  exact .refl _

/-! ### Expressions and statements -/

theorem resumes_stepVariable {operator name : Token} (hname : name.Names Token.Worded) (size : Float)
    (fixity : Fixity) : Resumes sites stack m (stepVariable operator size name fixity stack m) := by
  unfold stepVariable
  split
  · exact resumes_mk (.refl _) rfl
  · split
    · exact resumes_mk (.refl _) rfl
    · split
      · exact resumes_mk (.refl _) rfl
      · exact resumes_settle _ (Scopes.spares_define hname.ne_this _ _ _) rfl

theorem resumes_argumentsFrom (callee : Value) (paren : Token) (done : List Value)
    (todo : List Expr) : Resumes sites stack m (argumentsFrom callee paren done todo stack m) := by
  cases todo with
  | nil => exact resumes_mk (.refl _) rfl
  | cons e todo => exact resumes_push rfl (.refl _) rfl

theorem resumes_elementsFrom (done : List Value) (todo : List Expr) :
    Resumes sites stack m (elementsFrom done todo stack m) := by
  cases todo with
  | nil => exact resumes_mk (.refl _) rfl
  | cons e todo => exact resumes_push rfl (.refl _) rfl

theorem resumes_variablesFrom {bs : List (Token × Option Expr)}
    (hbs : bindingsSpelled Token.Worded bs) (hs : m.heap.scopes.Spares m'.heap.scopes)
    (hscope : m'.scope = m.scope) : Resumes sites stack m (variablesFrom bs stack m') := by
  induction bs generalizing m' with
  | nil => exact resumes_mk hs hscope
  | cons b rest ih =>
    obtain ⟨name, _ | value⟩ := b
    · obtain ⟨hname, hrest⟩ := hbs
      exact ih hrest (hs.trans (Scopes.spares_define hname.ne_this _ _ _)) hscope
    · exact resumes_push rfl hs hscope

theorem resumes_evaluate {e : Expr} (he : e.Spelled Token.Worded) :
    Resumes sites stack m (evaluate e stack m) := by
  cases e with
  | literal | group | lambda => exact resumes_mk (.refl _) rfl
  | unary operator operand fixity =>
    show Resumes sites stack m (unary operator operand fixity stack m)
    unfold unary
    split
    · exact resumes_stepVariable he.2 _ _
    · exact resumes_push rfl (.refl _) rfl
  | «variable» | this => exact resumes_settle _ (.refl _) rfl
  | array bracket elements => exact resumes_elementsFrom [] elements
  | binary | logical | ternary | assign | call | index | get | set =>
    exact resumes_push rfl (.refl _) rfl

theorem resumes_execute {x : Stmt} (hx : x.Spelled Token.Worded) :
    Resumes sites stack m (execute x stack m) := by
  cases x with
  | block body =>
    have hspares := m.heap.scopes.spares_child m.scope
    refine resumes_of_spares ?_ fun hb => ?_
    · show m.heap.scopes.Spares (runStmts body _ _).machine.heap.scopes
      rw [machine_runStmts]
      exact hspares
    · exact bodies_runStmts body (.block (.child _ m.scope) (hb.mono hspares.toKeeps))
  | var bindings => exact resumes_variablesFrom hx (.refl _) rfl
  | function decl =>
    have hdecl : decl.Spelled Token.Worded := hx
    exact resumes_mk (Scopes.spares_define hdecl.label_ne_this _ _ _) rfl
  | classDecl name methods => exact resumes_mk (Scopes.spares_define hx.1.ne_this _ _ _) rfl
  | returning keyword value =>
    cases value with
    | none => exact resumes_mk (.refl _) rfl
    | some value => exact resumes_push rfl (.refl _) rfl
  | breaking | continuing => exact resumes_mk (.refl _) rfl
  | expression | print | conditional | loop => exact resumes_push rfl (.refl _) rfl

/-! ### Calls and properties -/

theorem spares_bindParameters {names : List Token} (hnames : ∀ x ∈ names, x.Names Token.Worded)
    (h : Heap) (e : Nat) (values : List Value) :
    h.scopes.Spares (bindParameters h e names values).scopes := by
  induction names generalizing h values with
  | nil => exact .refl _
  | cons name names ih =>
    obtain ⟨hname, hnames⟩ := List.forall_mem_cons.1 hnames
    cases values with
    | nil => exact .refl _
    | cons v values =>
      exact (Scopes.spares_define hname.ne_this h.scopes e v).trans
        (ih hnames (h.define e name.lexeme v) values)

/-- The scope of the body lies in that of the parameters, and this one in that of the function. -/
theorem resumes_enterBody {f : Function} (hf : f.Spelled Token.Worded) (arguments : List Value) :
    Resumes sites stack m (enterBody f arguments stack m) := by
  let parameters := m.heap.scopes.nextScope
  have hparameters := m.heap.scopes.spares_child f.scope
  have hvalues := spares_bindParameters hf.parameters (m.heap.newScope f.scope).2 parameters arguments
  have hbody := (bindParameters (m.heap.newScope f.scope).2 parameters f.decl.parameters
    arguments).scopes.spares_child parameters
  have hspares := hparameters.trans (hvalues.trans hbody)
  refine resumes_of_spares ?_ fun hb => ?_
  · show m.heap.scopes.Spares (runStmts f.decl.body _ _).machine.heap.scopes
    rw [machine_runStmts]
    exact hspares
  · refine bodies_runStmts f.decl.body (.body ?_ (hb.mono hspares.toKeeps))
    have hin := Scopes.Within.child m.heap.scopes f.scope
    exact (Scopes.Within.child _ parameters).trans (hin.mono (hvalues.trans hbody).toKeeps)

theorem keeps_enterBody {f : Function} (hf : f.Spelled Token.Worded) (arguments : List Value)
    (stack : List Frame) (m : Machine) :
    m.heap.scopes.Keeps (enterBody f arguments stack m).machine.heap.scopes :=
  have h : Resumes [] stack m (enterBody f arguments stack m) := resumes_enterBody hf arguments
  h.keeps

/-- A method that is bound before something happens. -/
theorem Resumes.bind {f : Function} {r : Nat} {stack' : List Frame} {more : List Site} {st : State}
    (h : Resumes [] stack' { m with heap := (m.heap.bindMethod f r).2 } st)
    (hstack : Bodies m.heap.scopes m.scope stack → Bodies m.heap.scopes m.scope stack') :
    Resumes (.bound f.decl :: more) stack m st := by
  have hkeeps := m.heap.scopes.keeps_bind f.scope (.instance_ r)
  refine ⟨hkeeps.trans h.keeps, fun e v he hv => ⟨?_, _, _, rfl⟩, fun hb => ?_⟩
  · refine Classical.byContradiction fun hne => ?_
    rcases Nat.lt_or_ge e (m.heap.bindMethod f r).2.scopes.nextScope with hlt | hge
    · have hthis := (h.keeps.this e hlt).trans (Scopes.here?_bind_ne hne f.scope (.instance_ r))
      rw [hv, Scopes.here?_of_le he] at hthis
      cases hthis
    · obtain ⟨-, decl, sites, hsites⟩ := h.bound e v hge hv
      cases hsites
  · exact h.bodies ((hstack hb).mono hkeeps)

theorem resumes_instantiate {r : Nat} (hh : m.heap.Spelled Token.Worded) (arguments : List Value)
    (line : Nat) (stack' : List Frame) :
    Resumes (makes ⟨.invoke (.class_ r) arguments line, stack', m⟩) stack m
      (instantiate r arguments stack m) := by
  unfold instantiate makes
  dsimp only
  cases hf : (m.heap.class_ r).methods.get? initializerName with
  | none =>
    have hf' : ((m.heap.newInstance r).2.class_ r).methods.get? initializerName = none := hf
    rw [hf']
    exact resumes_mk (.refl _) rfl
  | some f =>
    have hf' : ((m.heap.newInstance r).2.class_ r).methods.get? initializerName = some f := hf
    rw [hf']
    have hmethod := hh.methods r initializerName f hf
    let bound := (m.heap.newInstance r).2.bindMethod f m.heap.instances.size
    have hbody : Resumes [] (.construct m.heap.instances.size :: stack) { m with heap := bound.2 }
        (enterBody bound.1 arguments _ _) :=
      resumes_enterBody (hmethod.bound _ _) arguments
    have hbind : Resumes [.bound f.decl, .parameters f.decl, .body f.decl] stack
        { m with heap := (m.heap.newInstance r).2 } _ :=
      hbody.bind fun hb => .frame rfl hb
    exact ⟨hbind.keeps, hbind.bound, hbind.bodies⟩

theorem resumes_invoke {callee : Value} {arguments : List Value} {line : Nat}
    (hh : m.heap.Spelled Token.Worded) :
    Resumes (makes ⟨.invoke callee arguments line, stack, m⟩) stack m
      (invoke callee arguments line stack m) := by
  unfold invoke
  split
  · exact resumes_mk (.refl _) rfl
  · split
    · exact resumes_mk (.refl _) rfl
    · split
      · exact resumes_mk (.refl _) rfl
      · let entered := m.enterCall (calleeName m.heap callee)
        have hleave : Resumes (makes ⟨.invoke callee arguments line, stack, m⟩) (.leave :: stack)
            entered (enterCallee callee arguments line (.leave :: stack) entered) := by
          cases callee with
          | builtin b =>
            refine resumes_settle _ ?_ rfl
            show m.heap.scopes.Spares (b.apply m.heap m.time line arguments).2.scopes
            rw [b.scopes_apply]
            exact .refl _
          | function r => exact resumes_enterBody (hh.functions r) arguments
          | class_ r => exact resumes_instantiate (m := entered) hh arguments line stack
          | _ => exact resumes_mk (.refl _) rfl
        exact ⟨hleave.keeps, hleave.bound, fun hb => hleave.bodies (.frame rfl hb)⟩

theorem resumes_property {r : Nat} {name : Token} :
    Resumes (makes ⟨.value (.instance_ r), .get name :: stack, m⟩) stack m
      (property r name stack m) := by
  unfold property makes
  dsimp only
  cases hfield : (m.heap.instance_ r).fields.get? name.lexeme with
  | some v => exact resumes_mk (.refl _) rfl
  | none =>
    cases hf : (m.heap.classOf r).methods.get? name.lexeme with
    | none => exact resumes_mk (.refl _) rfl
    | some f =>
      let bound := m.heap.bindMethod f r
      have hvalue : Resumes [] stack { m with heap := bound.2 }
          ⟨.value (bound.2.newFunction bound.1).1, stack,
            { m with heap := (bound.2.newFunction bound.1).2 }⟩ :=
        resumes_mk (.refl _) rfl
      exact hvalue.bind fun hb => hb

theorem resumes_nextRound (loop : Loop) : Resumes sites stack m (nextRound loop stack m) := by
  unfold nextRound
  split <;> exact resumes_push rfl (.refl _) rfl

/-! ### Outcomes -/

theorem resumes_giveValue {v : Value} {frame : Frame} (hf : frame.Spelled Token.Worded)
    (hplain : frame.isPlain) :
    Resumes (makes ⟨.value v, frame :: stack, m⟩) stack m (giveValue v frame stack m) := by
  cases frame with
  | restore | body => cases hplain
  | unary | binaryRight | position => exact resumes_settle _ (.refl _) rfl
  | binaryLeft | collection | increment => exact resumes_push rfl (.refl _) rfl
  | logical operator right =>
    simp only [giveValue]
    split <;> exact resumes_mk (.refl _) rfl
  | assign reference name =>
    simp only [giveValue]
    split
    · exact resumes_mk (Scopes.spares_define hf.ne_this _ _ _) rfl
    · exact resumes_mk (.refl _) rfl
  | callee paren arguments =>
    simp only [giveValue]
    split
    · exact resumes_argumentsFrom _ _ _ _
    · exact resumes_mk (.refl _) rfl
  | arguments => exact resumes_argumentsFrom _ _ _ _
  | elements => exact resumes_elementsFrom _ _
  | get name =>
    cases v with
    | instance_ r => exact resumes_property
    | _ => exact resumes_mk (.refl _) rfl
  | setObject name value =>
    cases v with
    | instance_ r => exact resumes_push rfl (.refl _) rfl
    | _ => exact resumes_mk (.refl _) rfl
  | var name rest =>
    exact resumes_variablesFrom hf.2 (Scopes.spares_define hf.1.ne_this _ _ _) rfl
  | conditional whenTrue whenFalse =>
    simp only [giveValue]
    split
    · exact resumes_mk (.refl _) rfl
    · cases whenFalse <;> exact resumes_mk (.refl _) rfl
  | condition loop =>
    simp only [giveValue]
    split
    · exact resumes_push rfl (.refl _) rfl
    · exact resumes_mk (.refl _) rfl
  | _ => exact resumes_mk (.refl _) rfl

theorem resumes_giveSignal {frame : Frame} (x : Signal) (hplain : frame.isPlain) :
    Resumes sites stack m (giveSignal x frame stack m) := by
  cases frame with
  | restore | body => cases hplain
  | sequence rest =>
    cases x with
    | normal => exact resumes_runStmts rest
    | _ => exact resumes_mk (.refl _) rfl
  | round loop =>
    cases x with
    | normal | nextRound => exact resumes_nextRound loop
    | _ => exact resumes_mk (.refl _) rfl
  | _ => exact resumes_mk (.refl _) rfl

theorem resumes_giveFault {frame : Frame} (f : Fault) (hplain : frame.isPlain) :
    Resumes sites stack m (giveFault f frame stack m) := by
  cases frame with
  | restore | body => cases hplain
  | _ => exact resumes_mk (.refl _) rfl

/-! ### Steps -/

/-- The scope at hand is where the stack has it, or right before the frame of a body is left, where the
stack below has it. -/
def Housed (st : State) : Prop :=
  Bodies st.machine.heap.scopes st.machine.scope st.stack ∨
    ∃ (ending : Ending) (f : Function) (stack : List Frame), st.focus = ending.focus ∧
      st.stack = .body f :: stack ∧ Bodies st.machine.heap.scopes st.machine.scope stack

/-- What the next step does to scopes and to the stack. -/
structure Advances (st : State) : Prop where
  keeps : st.machine.heap.scopes.Keeps st.step.machine.heap.scopes
  bound : ∀ e v, st.machine.heap.scopes.nextScope ≤ e →
    st.step.machine.heap.scopes.here? e "this" = some v →
    e = st.machine.heap.scopes.nextScope ∧ ∃ decl more, st.makes = .bound decl :: more
  housed : st.Housed → st.step.Housed

variable {focus : Focus} {frame : Frame}

theorem Housed.bodies {st : State} (h : st.Housed) (hf : ∀ ending : Ending, st.focus ≠ ending.focus) :
    Bodies st.machine.heap.scopes st.machine.scope st.stack := by
  rcases h with h | ⟨ending, f, stack, hfocus, -⟩
  · exact h
  · exact absurd hfocus (hf ending)

theorem Housed.pop (h : Housed ⟨focus, frame :: stack, m⟩) (hplain : frame.isPlain) :
    Bodies m.heap.scopes m.scope stack := by
  rcases h with h | ⟨_, _, _, -, hstack, -⟩
  · exact Bodies.pop h hplain
  · cases hstack
    cases hplain

theorem housed_body {f : Function} (h : Housed ⟨focus, .body f :: stack, m⟩) :
    Bodies m.heap.scopes m.scope stack := by
  rcases h with h | ⟨_, _, _, -, hstack, h⟩
  · cases h with
    | frame hplain => cases hplain
  · cases hstack
    exact h

/-- The frame of a block or a body that has ended. -/
theorem housed_restore {ending : Ending} {outer : Nat}
    (h : Housed ⟨ending.focus, .restore outer :: stack, m⟩) :
    Housed ⟨ending.focus, stack, { m with scope := outer }⟩ := by
  rcases h with h | ⟨_, _, _, -, hstack, -⟩
  · cases h with
    | frame hplain => cases hplain
    | block _ h => exact .inl h
    | body _ h => exact .inr ⟨ending, _, _, rfl, rfl, h⟩
  · cases hstack

theorem Resumes.advances {st : State} (h : Resumes st.makes stack st.machine st.step)
    (hb : st.Housed → Bodies st.machine.heap.scopes st.machine.scope stack) : st.Advances :=
  ⟨h.keeps, h.bound, fun hh => .inl (h.bodies (hb hh))⟩

theorem advances_of_step_eq {st : State} (hstep : st.step = st) : st.Advances := by
  refine ⟨?_, fun e v he hv => ?_, fun hh => ?_⟩
  · rw [hstep]
    exact (Scopes.Spares.refl _).toKeeps
  · rw [hstep, Scopes.here?_of_le he] at hv
    cases hv
  · rw [hstep]
    exact hh

theorem advances_restore (ending : Ending) {outer : Nat}
    (hstep : step ⟨ending.focus, .restore outer :: stack, m⟩ =
      ⟨ending.focus, stack, { m with scope := outer }⟩) :
    Advances ⟨ending.focus, .restore outer :: stack, m⟩ := by
  refine ⟨?_, fun e v he hv => ?_, fun hh => ?_⟩
  · rw [hstep]
    exact (Scopes.Spares.refl _).toKeeps
  · rw [hstep] at hv
    have hnone : m.heap.scopes.here? e "this" = none := Scopes.here?_of_le he
    rw [hnone] at hv
    cases hv
  · rw [hstep]
    exact housed_restore hh

/-- A step keeps scopes and their `this`, and keeps the scope at hand where the stack has it. -/
theorem Spelled.advances {st : State} (h : st.Spelled Token.Worded) : st.Advances := by
  obtain ⟨focus, stack, m⟩ := st
  obtain ⟨hh, hs, hfocus⟩ := h
  cases focus with
  | evaluate e => exact (resumes_evaluate hfocus).advances fun hh => hh.bodies nofun
  | execute x => exact (resumes_execute hfocus).advances fun hh => hh.bodies nofun
  | invoke callee arguments line => exact (resumes_invoke hh).advances fun hh => hh.bodies nofun
  | value v =>
    rcases stack with _ | ⟨frame, stack⟩
    · exact advances_of_step_eq rfl
    cases hplain : frame.isPlain with
    | true =>
      have hframe := (List.forall_mem_cons.1 hs).1
      exact (resumes_giveValue hframe hplain).advances fun hh => hh.pop hplain
    | false =>
      cases frame <;> cases hplain
      · exact advances_restore (.value v) rfl
      · exact (resumes_mk (.refl _) rfl).advances housed_body
  | signal x =>
    rcases stack with _ | ⟨frame, stack⟩
    · exact advances_of_step_eq rfl
    cases hplain : frame.isPlain with
    | true => exact (resumes_giveSignal x hplain).advances fun hh => hh.pop hplain
    | false =>
      cases frame <;> cases hplain
      · exact advances_restore (.signal x) rfl
      · exact (resumes_settle _ (.refl _) rfl).advances housed_body
  | fault f =>
    rcases stack with _ | ⟨frame, stack⟩
    · exact advances_of_step_eq rfl
    cases hplain : frame.isPlain with
    | true => exact (resumes_giveFault f hplain).advances fun hh => hh.pop hplain
    | false =>
      cases frame <;> cases hplain
      · exact advances_restore (.fault f) rfl
      · exact (resumes_mk (.refl _) rfl).advances housed_body

theorem Spelled.steps_keeps {st : State} (h : st.Spelled Token.Worded) (count : Nat) :
    st.machine.heap.scopes.Keeps (st.steps count).machine.heap.scopes := by
  induction count generalizing st with
  | zero => exact (Scopes.Spares.refl _).toKeeps
  | succ count ih => exact h.advances.keeps.trans (ih h.step)

end State

end TreeWalk
