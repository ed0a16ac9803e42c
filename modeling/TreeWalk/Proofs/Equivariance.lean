import TreeWalk.Proofs.Renaming
import TreeWalk.Proofs.Unwind

/-!
# Runs do not depend on references and lines

A machine uses a reference for one thing only, to look up a distance, and a line only to put it into
a fault. So a renamed state steps as the state itself does (`State.step_rename`), provided the
renamed references have the same distances (`Distances.Agree`), and a whole run of the renamed
machine gives the same values and output and the same fault on the renamed line.
-/

namespace TreeWalk

/-! ### Renamed data -/

namespace Table

variable {α β : Type}

/-- The same names with other entries. -/
def mapEntries (f : α → β) (t : Table α) : Table β :=
  t.map fun p => (p.1, f p.2)

@[simp]
theorem get?_mapEntries (f : α → β) (x : String) (t : Table α) :
    (t.mapEntries f).get? x = (t.get? x).map f := by
  induction t with
  | nil => rfl
  | cons p rest ih =>
    obtain ⟨y, a⟩ := p
    rw [mapEntries, List.map_cons, get?, get?]
    split
    · rfl
    · exact ih

theorem set_mapEntries (f : α → β) (x : String) (a : α) (t : Table α) :
    (t.mapEntries f).set x (f a) = (t.set x a).mapEntries f := by
  induction t with
  | nil => rfl
  | cons p rest ih =>
    obtain ⟨y, b⟩ := p
    rw [mapEntries, List.map_cons, set, set]
    split
    · rfl
    · rw [mapEntries, List.map_cons]
      exact congrArg _ ih

end Table

/-- The table `d'` has under every renamed reference what `d` has under the reference. -/
def Distances.Agree (ρ : Renaming) (d d' : Distances) : Prop :=
  ∀ r, d'.get? (ρ.reference r) = d.get? r

def Fault.rename (ρ : Renaming) : Fault → Fault
  | .runtime cause line trace => .runtime cause (ρ.line line) trace
  | .conversion shown target => .conversion shown target

/-- An outcome whose fault, if it is one, is on the renamed line. -/
def renameOutcome {α : Type} (ρ : Renaming) : Except Fault α → Except Fault α
  | .ok a => .ok a
  | .error f => .error (f.rename ρ)

def Function.rename (ρ : Renaming) (f : Function) : Function :=
  { f with decl := f.decl.rename ρ }

def Class.rename (ρ : Renaming) (c : Class) : Class :=
  { c with methods := c.methods.mapEntries (·.rename ρ) }

def Heap.rename (ρ : Renaming) (h : Heap) : Heap :=
  { h with functions := h.functions.map (·.rename ρ), classes := h.classes.map (·.rename ρ) }

/-- The machine with renamed functions and the distances `d`. -/
def Machine.rename (ρ : Renaming) (d : Distances) (m : Machine) : Machine :=
  { m with heap := m.heap.rename ρ, distances := d }

def Focus.rename (ρ : Renaming) : Focus → Focus
  | .evaluate e => .evaluate (e.rename ρ)
  | .execute s => .execute (s.rename ρ)
  | .invoke callee arguments line => .invoke callee arguments (ρ.line line)
  | .value v => .value v
  | .signal s => .signal s
  | .fault f => .fault (f.rename ρ)

def Loop.rename (ρ : Renaming) (l : Loop) : Loop :=
  ⟨l.condition.rename ρ, l.body.rename ρ, l.increment.map (·.rename ρ)⟩

def Frame.rename (ρ : Renaming) : Frame → Frame
  | .unary operator fixity => .unary (operator.rename ρ) fixity
  | .binaryLeft operator right => .binaryLeft (operator.rename ρ) (right.rename ρ)
  | .binaryRight left operator => .binaryRight left (operator.rename ρ)
  | .logical operator right => .logical (operator.rename ρ) (right.rename ρ)
  | .ternary whenTrue whenFalse => .ternary (whenTrue.rename ρ) (whenFalse.rename ρ)
  | .assign reference name => .assign (ρ.reference reference) (name.rename ρ)
  | .callee paren todo => .callee (paren.rename ρ) (renameExprs ρ todo)
  | .arguments v paren done todo => .arguments v (paren.rename ρ) done (renameExprs ρ todo)
  | .elements done todo => .elements done (renameExprs ρ todo)
  | .collection bracket e => .collection (bracket.rename ρ) (e.rename ρ)
  | .position v bracket => .position v (bracket.rename ρ)
  | .get name => .get (name.rename ρ)
  | .setObject name value => .setObject (name.rename ρ) (value.rename ρ)
  | .setValue target name => .setValue target (name.rename ρ)
  | .expression => .expression
  | .print => .print
  | .var name rest => .var (name.rename ρ) (renameBindings ρ rest)
  | .conditional whenTrue whenFalse =>
    .conditional (whenTrue.rename ρ) (whenFalse.map (·.rename ρ))
  | .condition loop => .condition (loop.rename ρ)
  | .increment loop => .increment (loop.rename ρ)
  | .returning => .returning
  | .sequence rest => .sequence (renameStmts ρ rest)
  | .round loop => .round (loop.rename ρ)
  | .restore scope => .restore scope
  | .body function => .body (function.rename ρ)
  | .construct target => .construct target
  | .leave => .leave

def State.rename (ρ : Renaming) (d : Distances) (s : State) : State :=
  ⟨s.focus.rename ρ, s.stack.map (Frame.rename ρ), s.machine.rename ρ d⟩

/-! ### Lines and names of renamed trees -/

section

variable (ρ : Renaming)

@[simp]
theorem FunctionDecl.rename_parameters (f : FunctionDecl) :
    (f.rename ρ).parameters = f.parameters.map (·.rename ρ) := by
  obtain ⟨name, parameters, body, keyword⟩ := f
  rfl

@[simp]
theorem FunctionDecl.rename_body (f : FunctionDecl) :
    (f.rename ρ).body = renameStmts ρ f.body := by
  obtain ⟨name, parameters, body, keyword⟩ := f
  rfl

@[simp]
theorem FunctionDecl.rename_keyword (f : FunctionDecl) :
    (f.rename ρ).keyword = f.keyword.rename ρ := by
  obtain ⟨name, parameters, body, keyword⟩ := f
  rfl

@[simp]
theorem FunctionDecl.label_rename (f : FunctionDecl) : (f.rename ρ).label = f.label := by
  obtain ⟨_ | name, parameters, body, keyword⟩ := f <;> rfl

theorem Expr.line_rename : (e : Expr) → (e.rename ρ).line = ρ.line e.line
  | .literal _ => ρ.line_zero.symm
  | .group inner => inner.line_rename
  | .ternary condition _ _ => condition.line_rename
  | .lambda function => congrArg Token.line (function.rename_keyword ρ)
  | .unary .. | .binary .. | .logical .. | .variable .. | .assign .. | .call .. | .array ..
  | .index .. | .get .. | .set .. | .this .. => rfl

theorem Stmt.line_rename : (s : Stmt) → (s.rename ρ).line = ρ.line s.line
  | .block [] | .var [] => ρ.line_zero.symm
  | .block (first :: _) => by
    rw [Stmt.rename, renameStmts, Stmt.line, Stmt.line, first.line_rename]
  | .expression value | .print value => value.line_rename ρ
  | .function decl => congrArg Token.line (decl.rename_keyword ρ)
  | .conditional condition _ none | .conditional condition _ (some _)
  | .loop condition _ none | .loop condition _ (some _) => condition.line_rename ρ
  | .var ((_, none) :: _) | .var ((_, some _) :: _) | .classDecl .. | .returning _ none
  | .returning _ (some _) | .breaking _ | .continuing _ => rfl

end

/-! ### The heap -/

namespace Heap

variable (ρ : Renaming) (h : Heap)

@[simp]
theorem scopes_rename : (h.rename ρ).scopes = h.scopes := rfl

@[simp]
theorem instance_rename (r : Nat) : (h.rename ρ).instance_ r = h.instance_ r := rfl

@[simp]
theorem array_rename (r : Nat) : (h.rename ρ).array r = h.array r := rfl

theorem default_rename : (default : Function).rename ρ = default := by
  have hdecl : (default : FunctionDecl).rename ρ = default := by
    show FunctionDecl.mk none [] [] ⟨.endOfSource, "", ρ.line 0⟩ = _
    rw [ρ.line_zero]
    rfl
  show Function.mk ((default : FunctionDecl).rename ρ) _ _ = _
  rw [hdecl]
  rfl

@[simp]
theorem function_rename (r : Nat) : (h.rename ρ).function r = (h.function r).rename ρ := by
  rw [function, function, rename, Array.getElem?_map]
  cases h.functions[r]? with
  | none => exact (default_rename ρ).symm
  | some f => rfl

@[simp]
theorem class_rename (r : Nat) : (h.rename ρ).class_ r = (h.class_ r).rename ρ := by
  rw [class_, class_, rename, Array.getElem?_map]
  cases h.classes[r]? with
  | none => rfl
  | some c => rfl

@[simp]
theorem classOf_rename (r : Nat) : (h.rename ρ).classOf r = (h.classOf r).rename ρ :=
  class_rename ρ h _

@[simp]
theorem newFunction_rename (f : Function) :
    (h.rename ρ).newFunction (f.rename ρ) =
      ((h.newFunction f).1, (h.newFunction f).2.rename ρ) := by
  simp [newFunction, rename]

@[simp]
theorem newClass_rename (c : Class) :
    (h.rename ρ).newClass (c.rename ρ) = ((h.newClass c).1, (h.newClass c).2.rename ρ) := by
  simp [newClass, rename]

@[simp]
theorem newInstance_rename (c : Nat) :
    (h.rename ρ).newInstance c = ((h.newInstance c).1, (h.newInstance c).2.rename ρ) := rfl

@[simp]
theorem newScope_rename (e : Nat) :
    (h.rename ρ).newScope e = ((h.newScope e).1, (h.newScope e).2.rename ρ) := rfl

@[simp]
theorem define_rename (e : Nat) (x : String) (v : Value) :
    (h.rename ρ).define e x v = (h.define e x v).rename ρ := rfl

@[simp]
theorem bindMethod_rename (f : Function) (r : Nat) :
    (h.rename ρ).bindMethod (f.rename ρ) r =
      ((h.bindMethod f r).1.rename ρ, (h.bindMethod f r).2.rename ρ) := rfl

theorem textWithin_rename (fuel : Nat) (v : Value) :
    (h.rename ρ).textWithin fuel v = h.textWithin fuel v := by
  induction fuel generalizing v with
  | zero => cases v <;> simp [textWithin, Function.rename, Class.rename]
  | succ fuel ih => cases v <;> simp [textWithin, Function.rename, Class.rename, ih]

@[simp]
theorem text_rename (v : Value) : (h.rename ρ).text v = h.text v :=
  textWithin_rename ρ h _ v

@[simp]
theorem describe_rename (v : Value) : (h.rename ρ).describe v = h.describe v := by
  rw [describe, describe, text_rename]

theorem sameWithin_rename (fuel : Nat) (v w : Value) :
    (h.rename ρ).sameWithin fuel v w = h.sameWithin fuel v w := by
  induction fuel generalizing v w with
  | zero => cases v <;> cases w <;> rfl
  | succ fuel ih => cases v <;> cases w <;> simp [sameWithin, ih]

@[simp]
theorem same_rename (v w : Value) : (h.rename ρ).same v w = h.same v w :=
  sameWithin_rename ρ h _ v w

theorem number_rename (v : Value) : (h.rename ρ).number v = renameOutcome ρ (h.number v) := by
  unfold number
  split
  · rfl
  · rw [describe_rename]
    rfl

theorem onNumbers_rename (a b : Value) (f : Float → Float → Value) :
    (h.rename ρ).onNumbers a b f = renameOutcome ρ (h.onNumbers a b f) := by
  simp only [onNumbers, numbers, number_rename]
  cases h.number a with
  | error => rfl
  | ok x => cases h.number b <;> rfl

theorem unary_rename (operator : Token) (fixity : Fixity) (v : Value) :
    (h.rename ρ).unary (operator.rename ρ) fixity v =
      renameOutcome ρ (h.unary operator fixity v) := by
  have hsize : stepSize? (operator.rename ρ) = stepSize? operator := rfl
  simp only [unary, number_rename, hsize, Token.rename_kind]
  split
  · rfl
  · cases h.number v <;> rfl
  · cases stepSize? operator with
    | none => rfl
    | some size =>
      cases h.number v with
      | error => rfl
      | ok x => cases fixity <;> rfl

theorem plus_rename (a b : Value) : (h.rename ρ).plus a b = renameOutcome ρ (h.plus a b) := by
  unfold plus
  split
  · rfl
  · rw [describe_rename]
    rfl
  · exact onNumbers_rename ρ h _ _ _

theorem binary_rename (a : Value) (operator : Token) (b : Value) :
    (h.rename ρ).binary a (operator.rename ρ) b = renameOutcome ρ (h.binary a operator b) := by
  unfold binary
  rw [Token.rename_kind]
  split
  · rw [same_rename]
    rfl
  · rw [same_rename]
    rfl
  · exact plus_rename ρ h a b
  all_goals first | exact onNumbers_rename ρ h _ _ _ | rfl

theorem index_rename (collection : Value) (bracket : Token) (position : Value) :
    (h.rename ρ).index collection (bracket.rename ρ) position =
      renameOutcome ρ (h.index collection bracket position) := by
  unfold index
  split
  · rw [describe_rename, array_rename]
    split
    · rfl
    · split <;> rfl
  · rfl

end Heap

theorem Builtin.apply_rename (ρ : Renaming) (b : Builtin) (h : Heap) (time : Float) (line : Nat)
    (arguments : List Value) : b.apply (h.rename ρ) time (ρ.line line) arguments =
      (renameOutcome ρ (b.apply h time line arguments).1,
        (b.apply h time line arguments).2.rename ρ) := by
  have hlength (v : Value) : length? (h.rename ρ) v = length? h v := by cases v <;> rfl
  cases b with
  | int | float =>
    simp only [apply, Heap.describe_rename]
    split <;> rfl
  | string =>
    simp only [apply, Heap.text_rename]
    rfl
  | len =>
    simp only [apply, hlength]
    split <;> rfl
  | clock | type | bool | array => rfl

/-! ### The machine -/

namespace Machine

variable (ρ : Renaming) (d : Distances) (m : Machine)

@[simp]
theorem heap_rename : (m.rename ρ d).heap = m.heap.rename ρ := rfl

@[simp]
theorem scope_rename : (m.rename ρ d).scope = m.scope := rfl

@[simp]
theorem globals_rename : (m.rename ρ d).globals = m.globals := rfl

@[simp]
theorem calls_rename : (m.rename ρ d).calls = m.calls := rfl

@[simp]
theorem depth_rename : (m.rename ρ d).depth = m.depth := rfl

@[simp]
theorem time_rename : (m.rename ρ d).time = m.time := rfl

theorem store_rename (e : Nat) (name : Token) (v : Value) :
    (m.rename ρ d).store e (name.rename ρ) v = (m.store e name v).rename ρ d := rfl

theorem define_rename (x : String) (v : Value) :
    (m.rename ρ d).define x v = (m.define x v).rename ρ d := rfl

variable {ρ d m}

theorem lookUp_rename (h : m.distances.Agree ρ d) (reference : Nat) (name : Token) :
    (m.rename ρ d).lookUp (ρ.reference reference) (name.rename ρ) =
      renameOutcome ρ (m.lookUp reference name) := by
  have hd : (m.rename ρ d).distances.get? (ρ.reference reference) = m.distances.get? reference :=
    h reference
  simp only [lookUp, hd, heap_rename, Heap.scopes_rename, scope_rename, globals_rename,
    Token.rename_lexeme]
  cases m.distances.get? reference with
  | some distance =>
    simp only
    cases m.heap.scopes.getAt? m.scope distance name.lexeme <;> rfl
  | none =>
    simp only
    cases m.heap.scopes.get? m.globals name.lexeme <;> rfl

theorem holder?_rename (h : m.distances.Agree ρ d) (reference : Nat) (name : Token) :
    (m.rename ρ d).holder? (ρ.reference reference) (name.rename ρ) = m.holder? reference name := by
  have hd : (m.rename ρ d).distances.get? (ρ.reference reference) = m.distances.get? reference :=
    h reference
  simp only [holder?, hd, heap_rename, Heap.scopes_rename, scope_rename, globals_rename,
    Token.rename_lexeme]

end Machine

/-! ### Parts of a step -/

namespace State

section

variable (ρ : Renaming) (d : Distances) (stack : List Frame) (m : Machine)

@[simp]
theorem settle_rename (outcome : Except Fault Value) :
    settle (renameOutcome ρ outcome) (stack.map (Frame.rename ρ)) (m.rename ρ d) =
      (settle outcome stack m).rename ρ d := by
  cases outcome <;> rfl

theorem runStmts_rename (ss : List Stmt) :
    runStmts (renameStmts ρ ss) (stack.map (Frame.rename ρ)) (m.rename ρ d) =
      (runStmts ss stack m).rename ρ d := by
  cases ss <;> rfl

theorem stepVariable_rename (operator : Token) (size : Float) (name : Token) (fixity : Fixity) :
    stepVariable (operator.rename ρ) size (name.rename ρ) fixity (stack.map (Frame.rename ρ))
        (m.rename ρ d) =
      (stepVariable operator size name fixity stack m).rename ρ d := by
  simp only [stepVariable, Machine.heap_rename, Machine.scope_rename, Heap.scopes_rename,
    Token.rename_lexeme, Heap.number_rename, Heap.unary_rename, Machine.store_rename]
  cases m.heap.scopes.holder? m.scope name.lexeme with
  | none => rfl
  | some e =>
    simp only
    cases m.heap.scopes.here? e name.lexeme with
    | none => rfl
    | some v =>
      simp only
      cases m.heap.number v with
      | error f => rfl
      | ok x =>
        simp only [renameOutcome]
        exact settle_rename ρ d _ _ _

theorem unary_rename (operator : Token) (operand : Expr) (fixity : Fixity) :
    unary (operator.rename ρ) (operand.rename ρ) fixity (stack.map (Frame.rename ρ)) (m.rename ρ d) =
      (unary operator operand fixity stack m).rename ρ d := by
  have hsize : stepSize? (operator.rename ρ) = stepSize? operator := rfl
  cases hstep : stepSize? operator with
  | none => cases operand <;> simp only [unary, Expr.rename, hsize, hstep] <;> rfl
  | some size =>
    cases operand with
    | «variable» reference name =>
      simp only [unary, Expr.rename, hsize, hstep]
      exact stepVariable_rename ρ d _ _ operator size name fixity
    | _ => rfl

theorem argumentsFrom_rename (callee : Value) (paren : Token) (done : List Value)
    (todo : List Expr) :
    argumentsFrom callee (paren.rename ρ) done (renameExprs ρ todo) (stack.map (Frame.rename ρ))
        (m.rename ρ d) =
      (argumentsFrom callee paren done todo stack m).rename ρ d := by
  cases todo <;> rfl

theorem elementsFrom_rename (done : List Value) (todo : List Expr) :
    elementsFrom done (renameExprs ρ todo) (stack.map (Frame.rename ρ)) (m.rename ρ d) =
      (elementsFrom done todo stack m).rename ρ d := by
  cases todo <;> rfl

theorem variablesFrom_rename (bindings : List (Token × Option Expr)) :
    variablesFrom (renameBindings ρ bindings) (stack.map (Frame.rename ρ)) (m.rename ρ d) =
      (variablesFrom bindings stack m).rename ρ d := by
  induction bindings generalizing m with
  | nil => rfl
  | cons b rest ih =>
    obtain ⟨name, _ | value⟩ := b
    · rw [renameBindings, variablesFrom, variablesFrom, Machine.define_rename, ih]
      rfl
    · rfl

theorem makeFunction_rename (decl : FunctionDecl) :
    makeFunction (decl.rename ρ) (m.rename ρ d) =
      ((makeFunction decl m).1, (makeFunction decl m).2.rename ρ d) := by
  have h := Heap.newFunction_rename ρ m.heap ⟨decl, m.scope, false⟩
  simp only [Function.rename] at h
  simp only [makeFunction, Machine.heap_rename, Machine.scope_rename, h]
  rfl

theorem evaluate_rename {m : Machine} (h : m.distances.Agree ρ d) (e : Expr) :
    evaluate (e.rename ρ) (stack.map (Frame.rename ρ)) (m.rename ρ d) =
      (evaluate e stack m).rename ρ d := by
  cases e with
  | unary operator operand fixity => exact unary_rename ρ d _ _ operator operand fixity
  | «variable» reference name =>
    simp only [Expr.rename, evaluate, Machine.lookUp_rename h, settle_rename]
  | this reference keyword =>
    simp only [Expr.rename, evaluate, Machine.lookUp_rename h, settle_rename]
  | array bracket elements => exact elementsFrom_rename ρ d _ _ [] elements
  | lambda decl =>
    simp only [Expr.rename, evaluate, makeFunction_rename]
    rfl
  | _ => rfl

theorem methodTable_rename (e : Nat) (methods : List FunctionDecl) :
    methodTable e (renameMethods ρ methods) =
      (methodTable e methods).mapEntries (·.rename ρ) := by
  have h (t : Table Function) : (renameMethods ρ methods).foldl
      (fun t decl => t.set decl.label ⟨decl, e, decl.label = initializerName⟩)
        (t.mapEntries (·.rename ρ)) =
      (methods.foldl (fun t decl => t.set decl.label ⟨decl, e, decl.label = initializerName⟩)
        t).mapEntries (·.rename ρ) := by
    induction methods generalizing t with
    | nil => rfl
    | cons f rest ih =>
      simp only [renameMethods, List.foldl_cons, FunctionDecl.label_rename]
      rw [← ih, ← Table.set_mapEntries]
      rfl
  exact h []

theorem execute_rename (s : Stmt) :
    execute (s.rename ρ) (stack.map (Frame.rename ρ)) (m.rename ρ d) =
      (execute s stack m).rename ρ d := by
  cases s with
  | block body => exact runStmts_rename ρ d (.restore m.scope :: stack) (m.enterScope m.scope) body
  | var bindings => exact variablesFrom_rename ρ d _ _ bindings
  | function decl =>
    simp only [Stmt.rename, execute, makeFunction_rename, FunctionDecl.label_rename]
    rfl
  | classDecl name methods =>
    have h := Heap.newClass_rename ρ m.heap ⟨name.lexeme, methodTable m.scope methods⟩
    simp only [Class.rename] at h
    simp only [Stmt.rename, execute, Machine.heap_rename, Machine.scope_rename,
      Token.rename_lexeme, methodTable_rename, h]
    rfl
  | conditional condition whenTrue whenFalse => cases whenFalse <;> rfl
  | loop condition body increment => cases increment <;> rfl
  | returning keyword value => cases value <;> rfl
  | expression | print | breaking | continuing => rfl

theorem arity?_rename (h : Heap) (v : Value) : arity? (h.rename ρ) v = arity? h v := by
  have harity (f : Function) : (f.rename ρ).arity = f.arity := by
    simp [Function.arity, Function.rename]
  cases v with
  | function r => simp only [arity?, Heap.function_rename, harity]
  | class_ r =>
    simp only [arity?, Heap.class_rename, Class.rename, Table.get?_mapEntries]
    cases (h.class_ r).methods.get? initializerName with
    | none => rfl
    | some f => simp only [Option.map_some, harity]
  | _ => rfl

theorem calleeName_rename (h : Heap) (v : Value) : calleeName (h.rename ρ) v = calleeName h v := by
  cases v with
  | function r => simp only [calleeName, Heap.function_rename, Function.rename,
      FunctionDecl.label_rename]
  | class_ r => simp only [calleeName, Heap.class_rename, Class.rename]
  | _ => rfl

theorem bindParameters_rename (h : Heap) (e : Nat) (parameters : List Token)
    (arguments : List Value) :
    bindParameters (h.rename ρ) e (parameters.map (·.rename ρ)) arguments =
      (bindParameters h e parameters arguments).rename ρ := by
  unfold bindParameters
  induction parameters generalizing h arguments with
  | nil => rfl
  | cons name parameters ih =>
    rcases arguments with _ | ⟨v, arguments⟩
    · rfl
    · exact ih (h.define e name.lexeme v) arguments

theorem enterBody_rename (f : Function) (arguments : List Value) :
    enterBody (f.rename ρ) arguments (stack.map (Frame.rename ρ)) (m.rename ρ d) =
      (enterBody f arguments stack m).rename ρ d := by
  have hbody : (f.rename ρ).decl.body = renameStmts ρ f.decl.body := f.decl.rename_body ρ
  have hparameters : (f.rename ρ).decl.parameters = f.decl.parameters.map (·.rename ρ) :=
    f.decl.rename_parameters ρ
  simp only [enterBody, hbody, hparameters, Machine.heap_rename, Heap.newScope_rename,
    bindParameters_rename]
  exact runStmts_rename ρ d (.restore m.scope :: .body f :: stack)
    (Machine.enterScope { m with heap := bindParameters (m.heap.newScope f.scope).2 _ _ arguments } _)
    f.decl.body

theorem instantiate_rename (r : Nat) (arguments : List Value) :
    instantiate r arguments (stack.map (Frame.rename ρ)) (m.rename ρ d) =
      (instantiate r arguments stack m).rename ρ d := by
  simp only [instantiate, Machine.heap_rename, Heap.newInstance_rename, Heap.class_rename,
    Class.rename, Table.get?_mapEntries]
  cases ((m.heap.newInstance r).2.class_ r).methods.get? initializerName with
  | none => rfl
  | some f =>
    exact enterBody_rename ρ d (.construct (m.heap.newInstance r).1 :: stack)
      { m with heap := ((m.heap.newInstance r).2.bindMethod f (m.heap.newInstance r).1).2 }
      ((m.heap.newInstance r).2.bindMethod f (m.heap.newInstance r).1).1 arguments

theorem enterCallee_rename (callee : Value) (arguments : List Value) (line : Nat) :
    enterCallee callee arguments (ρ.line line) (stack.map (Frame.rename ρ)) (m.rename ρ d) =
      (enterCallee callee arguments line stack m).rename ρ d := by
  cases callee with
  | builtin b =>
    simp only [enterCallee, Machine.heap_rename, Machine.time_rename, Builtin.apply_rename]
    exact settle_rename ρ d stack
      { m with heap := (b.apply m.heap m.time line arguments).2 } _
  | function r =>
    simp only [enterCallee, Machine.heap_rename, Heap.function_rename]
    exact enterBody_rename ρ d _ _ _ arguments
  | class_ r => exact instantiate_rename ρ d _ _ r arguments
  | _ => rfl

theorem withTrace_rename (calls : List String) (f : Fault) :
    (f.rename ρ).withTrace calls = (f.withTrace calls).rename ρ := by
  cases f with
  | conversion => rfl
  | runtime cause line trace =>
    rcases trace with _ | ⟨name, trace⟩
    · cases calls <;> rfl
    · rfl

theorem invoke_rename (callee : Value) (arguments : List Value) (line : Nat) :
    invoke callee arguments (ρ.line line) (stack.map (Frame.rename ρ)) (m.rename ρ d) =
      (invoke callee arguments line stack m).rename ρ d := by
  simp only [invoke, Machine.heap_rename, arity?_rename, calleeName_rename, Machine.depth_rename,
    Machine.calls_rename]
  cases arity? m.heap callee with
  | none => rfl
  | some arity =>
    simp only
    split
    · rfl
    · split
      · exact congrArg (fun f => State.mk (.fault f) _ _)
          (withTrace_rename ρ m.calls (.onLine line .stackOverflow))
      · exact enterCallee_rename ρ d (.leave :: stack) (m.enterCall (calleeName m.heap callee))
          callee arguments line

theorem property_rename (r : Nat) (name : Token) :
    property r (name.rename ρ) (stack.map (Frame.rename ρ)) (m.rename ρ d) =
      (property r name stack m).rename ρ d := by
  simp only [property, Machine.heap_rename, Heap.instance_rename, Heap.classOf_rename,
    Token.rename_lexeme, Class.rename, Table.get?_mapEntries]
  cases (m.heap.instance_ r).fields.get? name.lexeme with
  | some v => rfl
  | none =>
    cases (m.heap.classOf r).methods.get? name.lexeme with
    | none => rfl
    | some f =>
      simp only [Option.map_some, Heap.bindMethod_rename, Heap.newFunction_rename]
      rfl

theorem nextRound_rename (loop : Loop) :
    nextRound (loop.rename ρ) (stack.map (Frame.rename ρ)) (m.rename ρ d) =
      (nextRound loop stack m).rename ρ d := by
  obtain ⟨condition, body, _ | increment⟩ := loop <;> rfl

theorem giveValue_rename {m : Machine} (h : m.distances.Agree ρ d) (v : Value) (frame : Frame) :
    giveValue v (frame.rename ρ) (stack.map (Frame.rename ρ)) (m.rename ρ d) =
      (giveValue v frame stack m).rename ρ d := by
  cases frame with
  | unary operator fixity =>
    simp only [Frame.rename, giveValue, Machine.heap_rename, Heap.unary_rename, settle_rename]
  | binaryRight left operator =>
    simp only [Frame.rename, giveValue, Machine.heap_rename, Heap.binary_rename, settle_rename]
  | logical operator right =>
    have hdecides : logicalDecides (operator.rename ρ) v = logicalDecides operator v := rfl
    simp only [Frame.rename, giveValue, hdecides]
    split <;> rfl
  | ternary whenTrue whenFalse =>
    simp only [Frame.rename, giveValue]
    split <;> rfl
  | assign reference name =>
    simp only [Frame.rename, giveValue, Machine.holder?_rename h]
    cases m.holder? reference name <;> rfl
  | callee paren todo =>
    simp only [Frame.rename, giveValue, Machine.heap_rename, arity?_rename]
    split
    · exact argumentsFrom_rename ρ d _ _ v paren [] todo
    · rfl
  | arguments callee paren done todo =>
    exact argumentsFrom_rename ρ d _ _ callee paren (v :: done) todo
  | elements done todo => exact elementsFrom_rename ρ d _ _ (v :: done) todo
  | position collection bracket =>
    simp only [Frame.rename, giveValue, Machine.heap_rename, Heap.index_rename, settle_rename]
  | get name =>
    cases v with
    | instance_ r => exact property_rename ρ d _ _ r name
    | _ => rfl
  | setObject name value => cases v <;> rfl
  | print =>
    simp only [Frame.rename, giveValue, Machine.heap_rename, Heap.text_rename]
    rfl
  | var name rest => exact variablesFrom_rename ρ d stack (m.define name.lexeme v) rest
  | conditional whenTrue whenFalse =>
    simp only [Frame.rename, giveValue]
    split
    · rfl
    · cases whenFalse <;> rfl
  | condition loop =>
    simp only [Frame.rename, giveValue]
    split <;> rfl
  | _ => rfl

theorem bodyValue_rename (f : Function) (s : Signal) :
    bodyValue (f.rename ρ) s (m.rename ρ d) = renameOutcome ρ (bodyValue f s m) := by
  have hkeyword : (f.rename ρ).decl.keyword = f.decl.keyword.rename ρ := f.decl.rename_keyword ρ
  have hinitializer : (f.rename ρ).isInitializer = f.isInitializer := rfl
  have hscope : (f.rename ρ).scope = f.scope := rfl
  simp only [bodyValue, hkeyword, hinitializer, hscope, Machine.heap_rename, Heap.scopes_rename]
  split
  · cases m.heap.scopes.getAt? f.scope 0 "this" <;> rfl
  · cases s <;> rfl

theorem giveSignal_rename (s : Signal) (frame : Frame) :
    giveSignal s (frame.rename ρ) (stack.map (Frame.rename ρ)) (m.rename ρ d) =
      (giveSignal s frame stack m).rename ρ d := by
  cases frame with
  | sequence rest =>
    cases s with
    | normal => exact runStmts_rename ρ d _ _ rest
    | _ => rfl
  | round loop =>
    cases s with
    | normal | nextRound => exact nextRound_rename ρ d _ _ loop
    | _ => rfl
  | body f =>
    simp only [Frame.rename, giveSignal, bodyValue_rename, settle_rename]
  | _ => rfl

theorem giveFault_rename (f : Fault) (frame : Frame) :
    giveFault (f.rename ρ) (frame.rename ρ) (stack.map (Frame.rename ρ)) (m.rename ρ d) =
      (giveFault f frame stack m).rename ρ d := by
  cases frame with
  | leave => exact congrArg (fun f => State.mk (.fault f) _ _) (withTrace_rename ρ m.calls f)
  | _ => rfl

end

/-- A renamed state steps as the state itself does. -/
theorem step_rename {ρ : Renaming} {d : Distances} {s : State} (h : s.machine.distances.Agree ρ d) :
    (s.rename ρ d).step = s.step.rename ρ d := by
  obtain ⟨focus, stack, m⟩ := s
  cases focus with
  | evaluate e => exact evaluate_rename ρ d stack h e
  | execute s => exact execute_rename ρ d _ _ s
  | invoke callee arguments line => exact invoke_rename ρ d _ _ callee arguments line
  | value v =>
    rcases stack with _ | ⟨frame, stack⟩
    · rfl
    · exact giveValue_rename ρ d stack h v frame
  | signal s =>
    rcases stack with _ | ⟨frame, stack⟩
    · rfl
    · exact giveSignal_rename ρ d _ _ s frame
  | fault f =>
    rcases stack with _ | ⟨frame, stack⟩
    · rfl
    · exact giveFault_rename ρ d _ _ f frame

/-! ### Whole runs -/

theorem distances_unwind (stack : List Frame) (r : Registers) :
    (unwind stack r).distances = r.distances := by
  induction stack generalizing r with
  | nil => rfl
  | cons frame stack ih =>
    rw [unwind_cons, ih]
    cases frame <;> rfl

theorem distances_step (s : State) : s.step.machine.distances = s.machine.distances := by
  have h := congrArg Registers.distances (unwound_step s)
  rwa [unwound, unwound, distances_unwind, distances_unwind] at h

end State

def Ending.rename (ρ : Renaming) : Ending → Ending
  | .value v => .value v
  | .signal s => .signal s
  | .fault f => .fault (f.rename ρ)

theorem State.ending?_rename (ρ : Renaming) (d : Distances) (s : State) :
    (s.rename ρ d).ending? = s.ending?.map (·.rename ρ) := by
  obtain ⟨focus, stack, m⟩ := s
  rcases stack with _ | ⟨frame, stack⟩ <;> cases focus <;> rfl

theorem State.run_rename {ρ : Renaming} {d : Distances} {s : State}
    (h : s.machine.distances.Agree ρ d) (limit : Nat) :
    (s.rename ρ d).run limit = (s.run limit).map fun r => (r.1.rename ρ, r.2.rename ρ d) := by
  induction limit generalizing s with
  | zero => rfl
  | succ limit ih =>
    rw [State.run, State.run, State.ending?_rename]
    cases s.ending? with
    | some ending => rfl
    | none =>
      simp only [Option.map_none]
      rw [State.step_rename h, ih (by rwa [State.distances_step])]

namespace Machine

variable {ρ : Renaming} {d : Distances} {m : Machine}

theorem evaluate_rename (h : m.distances.Agree ρ d) (limit : Nat) (e : Expr) :
    (m.rename ρ d).evaluate limit (e.rename ρ) =
      (m.evaluate limit e).map fun r => (renameOutcome ρ r.1, r.2.rename ρ d) := by
  have hrun := State.run_rename (s := ⟨.evaluate e, [], m⟩) h limit
  simp only [evaluate]
  rw [show State.mk (.evaluate (e.rename ρ)) [] (m.rename ρ d) =
    State.rename ρ d ⟨.evaluate e, [], m⟩ from rfl, hrun]
  rcases State.run limit ⟨.evaluate e, [], m⟩ with _ | ⟨_ | _ | _, m'⟩ <;> rfl

theorem execute_rename (h : m.distances.Agree ρ d) (limit : Nat) (s : Stmt) :
    (m.rename ρ d).execute limit (s.rename ρ) =
      (m.execute limit s).map fun r => (renameOutcome ρ r.1, r.2.rename ρ d) := by
  have hrun := State.run_rename (s := ⟨.execute s, [], m⟩) h limit
  simp only [execute]
  rw [show State.mk (.execute (s.rename ρ)) [] (m.rename ρ d) =
    State.rename ρ d ⟨.execute s, [], m⟩ from rfl, hrun]
  rcases State.run limit ⟨.execute s, [], m⟩ with _ | ⟨_ | _ | _, m'⟩ <;> rfl

theorem signalFault?_rename (s : Stmt) (signal : Signal) :
    signalFault? (s.rename ρ) signal = (signalFault? s signal).map (·.rename ρ) := by
  cases signal <;> simp [signalFault?, Fault.onLine, Fault.rename, Stmt.line_rename]

theorem interpretOne_rename (h : m.distances.Agree ρ d) (limit : Nat) (s : Stmt) :
    (m.rename ρ d).interpretOne limit (s.rename ρ) =
      (m.interpretOne limit s).map fun r => (renameOutcome ρ r.1, r.2.rename ρ d) := by
  by_cases hs : ∃ e, s = .expression e
  · obtain ⟨e, rfl⟩ := hs
    rw [Stmt.rename, interpretOne, interpretOne, evaluate_rename h]
    rcases m.evaluate limit e with _ | ⟨_ | _, m'⟩ <;> rfl
  · have hs₁ : ∀ e, s = .expression e → False := fun e he => hs ⟨e, he⟩
    have hs₂ : ∀ e, s.rename ρ = .expression e → False := by
      intro e he
      rcases s with _ | value | _ | _ | _ | _ | ⟨_, _, _ | _⟩ | ⟨_, _, _ | _⟩ | ⟨_, _ | _⟩ | _ | _
      case expression => exact hs ⟨value, rfl⟩
      all_goals cases he
    rw [interpretOne.eq_2 _ _ _ hs₁, interpretOne.eq_2 _ _ _ hs₂, execute_rename h]
    rcases m.execute limit s with _ | ⟨f | signal, m'⟩
    · rfl
    · rfl
    · simp only [Option.map_some, renameOutcome, signalFault?_rename]
      cases signalFault? s signal <;> rfl

/-- A renamed program gives the same values and output; a fault is on the renamed line. -/
theorem interpret_rename (h : m.distances.Agree ρ d) (limit : Nat) (program : List Stmt) :
    (m.rename ρ d).interpret limit (renameStmts ρ program) =
      (m.interpret limit program).map fun r => (renameOutcome ρ r.1, r.2.rename ρ d) := by
  induction program generalizing m with
  | nil => rfl
  | cons s rest ih =>
    rw [renameStmts, interpret, interpret, interpretOne_rename h]
    cases hone : m.interpretOne limit s with
    | none => rfl
    | some r =>
      obtain ⟨f | v, m'⟩ := r
      · rfl
      · have hdistances : m'.distances = m.distances :=
          congrArg Registers.distances (registers_of_interpretOne hone)
        simp only [Option.map_some, renameOutcome]
        rw [ih (by rwa [hdistances])]
        rcases m'.interpret limit rest with _ | ⟨_ | _, m''⟩ <;> rfl

end Machine

end TreeWalk
