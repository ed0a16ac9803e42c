import TreeWalk.Proofs.Fits

/-!
# Steps keep states fitting

A step of a state that fits its world leads to one that fits, in the same world or in the one in
which the scopes that the step can make (`State.makes`) have been made for what they stand for.
-/

namespace TreeWalk

/-! ### Faults -/

/-- The active calls that a fault names. -/
def Fault.trace : Fault → List String
  | .runtime _ _ trace => trace
  | .conversion _ _ => []

/-- A fault that is not the one of a stray signal, and names no calls. -/
structure Fault.Plain (f : Fault) : Prop where
  isLeak : f.isLeak = false
  trace : f.trace = []

/-- No operation on values ends a program as a stray signal would, and none knows of calls. -/
def Harmless (outcome : Except Fault Value) : Prop :=
  ∀ f, outcome = .error f → f.Plain

theorem harmless_ok (v : Value) : Harmless (.ok v) := nofun

theorem harmless_error {f : Fault} (h : f.Plain) : Harmless (.error f) := by
  rintro _ ⟨⟩
  exact h

theorem Fault.isLeak_withTrace (calls : List String) (f : Fault) :
    (f.withTrace calls).isLeak = f.isLeak := by
  cases f with
  | conversion => rfl
  | runtime cause line trace =>
    cases trace with
    | nil => cases calls <;> cases cause <;> rfl
    | cons => rfl

namespace Heap

variable (h : Heap)

theorem number_harmless {v : Value} {f : Fault} (hv : h.number v = .error f) : f.Plain := by
  unfold number at hv
  split at hv <;> cases hv
  exact ⟨rfl, rfl⟩

theorem onNumbers_harmless (a b : Value) (f : Float → Float → Value) :
    Harmless (h.onNumbers a b f) := by
  unfold onNumbers numbers
  cases ha : h.number a with
  | error f => exact harmless_error (h.number_harmless ha)
  | ok x =>
    cases hb : h.number b with
    | error f => exact harmless_error (h.number_harmless hb)
    | ok y => exact harmless_ok _

theorem unary_harmless (operator : Token) (fixity : Fixity) (v : Value) :
    Harmless (h.unary operator fixity v) := by
  unfold unary
  split
  · exact harmless_ok _
  · split
    · next hn => exact harmless_error (h.number_harmless hn)
    · exact harmless_ok _
  · split
    · split
      · next hn => exact harmless_error (h.number_harmless hn)
      · split <;> exact harmless_ok _
    · exact harmless_error ⟨rfl, rfl⟩

theorem binary_harmless (a : Value) (operator : Token) (b : Value) :
    Harmless (h.binary a operator b) := by
  have hplus : Harmless (h.plus a b) := by
    unfold plus
    split
    · exact harmless_ok _
    · exact harmless_error ⟨rfl, rfl⟩
    · exact h.onNumbers_harmless _ _ _
  unfold binary
  split
  · exact harmless_ok _
  · exact harmless_ok _
  · exact hplus
  · exact h.onNumbers_harmless _ _ _
  · exact h.onNumbers_harmless _ _ _
  · exact h.onNumbers_harmless _ _ _
  · exact h.onNumbers_harmless _ _ _
  · exact h.onNumbers_harmless _ _ _
  · exact h.onNumbers_harmless _ _ _
  · exact h.onNumbers_harmless _ _ _
  · exact harmless_error ⟨rfl, rfl⟩

theorem index_harmless (collection : Value) (bracket : Token) (position : Value) :
    Harmless (h.index collection bracket position) := by
  unfold index
  split
  · split
    · exact harmless_error ⟨rfl, rfl⟩
    · split
      · exact harmless_ok _
      · exact harmless_error ⟨rfl, rfl⟩
  · exact harmless_error ⟨rfl, rfl⟩

end Heap

theorem Machine.lookUp_harmless (m : Machine) (reference : Nat) (name : Token) :
    Harmless (m.lookUp reference name) := by
  unfold lookUp
  dsimp only
  split
  · exact harmless_ok _
  · exact harmless_error ⟨rfl, rfl⟩

theorem Builtin.apply_harmless (b : Builtin) (h : Heap) (time : Float) (line : Nat)
    (arguments : List Value) : Harmless (b.apply h time line arguments).1 := by
  cases b with
  | clock | type | bool | string | array => exact harmless_ok _
  | int | float | len =>
    simp only [apply]
    split
    · exact harmless_ok _
    · exact harmless_error ⟨rfl, rfl⟩

/-- A builtin function adds an array to the heap, if anything. -/
theorem Builtin.heap_apply (b : Builtin) (h : Heap) (time : Float) (line : Nat)
    (arguments : List Value) : (b.apply h time line arguments).2 = h ∨
      (b.apply h time line arguments).2 = (h.newArray arguments).2 := by
  cases b with
  | clock | type | bool | string => exact .inl rfl
  | array => exact .inr rfl
  | int | float | len =>
    simp only [apply]
    split <;> exact .inl rfl

theorem Builtin.scopes_apply (b : Builtin) (h : Heap) (time : Float) (line : Nat)
    (arguments : List Value) : (b.apply h time line arguments).2.scopes = h.scopes := by
  rcases b.heap_apply h time line arguments with heq | heq <;> rw [heq]
  rfl

theorem Builtin.apply_fits {W : World} {h : Heap} (hh : W.HeapFits h) (b : Builtin) (time : Float)
    (line : Nat) (arguments : List Value) : W.HeapFits (b.apply h time line arguments).2 := by
  rcases b.heap_apply h time line arguments with heq | heq <;> rw [heq]
  · exact hh
  · exact hh.congr rfl rfl rfl

namespace State

variable {W : World} {p : Setting} {stack : List Frame} {m : Machine}

/-! ### Expressions -/

theorem fits_settle {outcome : Except Fault Value} (hh : W.HeapFits m.heap)
    (hs : Waits W m.heap.scopes .value m.scope stack) (ho : Harmless outcome) :
    (settle outcome stack m).Fits W := by
  cases outcome with
  | ok v => exact ⟨hh, hs⟩
  | error f => exact ⟨hh, (ho f rfl).isLeak⟩

theorem fits_stepVariable (hh : W.HeapFits m.heap)
    (hs : Waits W m.heap.scopes .value m.scope stack) (operator : Token) (size : Float)
    (name : Token) (fixity : Fixity) :
    (stepVariable operator size name fixity stack m).Fits W := by
  unfold stepVariable
  split
  · exact ⟨hh, rfl⟩
  · next e _ =>
    split
    · exact ⟨hh, rfl⟩
    · split
      · next hn => exact ⟨hh, (m.heap.number_harmless hn).isLeak⟩
      · refine fits_settle (hh.define _ _ _) ?_ (Heap.unary_harmless _ _ _ _)
        exact hs.mono (.refl W) (Scopes.extends_define _ _ _ _)

/-- One operand is evaluated, and a frame keeps others of the same expression. -/
theorem fits_operand {e x : Expr} {frame : Frame} {es : List Expr} (hh : W.HeapFits m.heap)
    (hk : W.Knows (.expr e) p) (hat : W.At m.heap.scopes [] m.scope p)
    (hs : Waits W m.heap.scopes .value m.scope stack) (hx : x ∈ e.operands)
    (hf : frame.operands? = some es) (hes : es ⊆ e.operands) :
    State.Fits W ⟨.evaluate x, frame :: stack, m⟩ :=
  ⟨hh, p, hk.operands x hx, hat,
    .operands hf (fun y hy => ⟨p, hk.operands y (hes hy), hat⟩) hs⟩

theorem fits_elementsFrom {done : List Value} {todo : List Expr} (hh : W.HeapFits m.heap)
    (hk : ∀ x ∈ todo, ∃ p, W.Knows (.expr x) p ∧ W.At m.heap.scopes [] m.scope p)
    (hs : Waits W m.heap.scopes .value m.scope stack) :
    (elementsFrom done todo stack m).Fits W := by
  cases todo with
  | nil => exact ⟨hh.congr rfl rfl rfl, hs⟩
  | cons x todo =>
    obtain ⟨⟨p, hx, hat⟩, htodo⟩ := List.forall_mem_cons.1 hk
    exact ⟨hh, p, hx, hat, .operands rfl htodo hs⟩

theorem fits_argumentsFrom {callee : Value} {paren : Token} {done : List Value} {todo : List Expr}
    (hh : W.HeapFits m.heap)
    (hk : ∀ x ∈ todo, ∃ p, W.Knows (.expr x) p ∧ W.At m.heap.scopes [] m.scope p)
    (hs : Waits W m.heap.scopes .value m.scope stack) :
    (argumentsFrom callee paren done todo stack m).Fits W := by
  cases todo with
  | nil => exact ⟨hh, hs⟩
  | cons x todo =>
    obtain ⟨⟨p, hx, hat⟩, htodo⟩ := List.forall_mem_cons.1 hk
    exact ⟨hh, p, hx, hat, .operands rfl htodo hs⟩

theorem fits_evaluate {e : Expr} (hh : W.HeapFits m.heap) (hk : W.Knows (.expr e) p)
    (hat : W.At m.heap.scopes [] m.scope p) (hs : Waits W m.heap.scopes .value m.scope stack) :
    (evaluate e stack m).Fits W := by
  cases e with
  | literal value => exact ⟨hh, hs⟩
  | group inner => exact ⟨hh, p, hk.operands inner (by simp [Expr.operands]), hat, hs⟩
  | unary operator operand fixity =>
    show (unary operator operand fixity stack m).Fits W
    unfold unary
    split
    · exact fits_stepVariable hh hs _ _ _ _
    · exact fits_operand hh hk hat hs (by simp [Expr.operands]) rfl (List.nil_subset _)
  | binary left operator right | logical left operator right =>
    exact fits_operand hh hk hat hs (by simp [Expr.operands]) rfl (by simp [Expr.operands])
  | ternary condition whenTrue whenFalse =>
    exact fits_operand hh hk hat hs (by simp [Expr.operands]) rfl (by simp [Expr.operands])
  | «variable» reference name => exact fits_settle hh hs (m.lookUp_harmless _ _)
  | this reference keyword => exact fits_settle hh hs (m.lookUp_harmless _ _)
  | assign reference name value =>
    exact ⟨hh, p, hk.operands value (by simp [Expr.operands]), hat,
      .assign (hk.visited rfl) hat hs⟩
  | call callee paren arguments =>
    exact fits_operand hh hk hat hs (by simp [Expr.operands]) rfl (by simp [Expr.operands])
  | array bracket elements =>
    exact fits_elementsFrom hh (fun x hx => ⟨p, hk.operands x hx, hat⟩) hs
  | index collection bracket position =>
    exact fits_operand hh hk hat hs (by simp [Expr.operands]) rfl (by simp [Expr.operands])
  | get object name =>
    exact fits_operand hh hk hat hs (by simp [Expr.operands]) rfl (List.nil_subset _)
  | set object name value =>
    exact fits_operand hh hk hat hs (by simp [Expr.operands]) rfl (by simp [Expr.operands])
  | lambda decl =>
    have hbody := hk.child (List.mem_singleton_self _)
    exact ⟨hh.newFunction (World.FunctionFits.plain hbody hat), hs⟩

/-! ### Statements -/

/-- A statement has ended, and the next one can begin. -/
theorem fits_normal (hh : W.HeapFits m.heap) (hat : W.At m.heap.scopes [] m.scope p)
    (hs : Waits W m.heap.scopes (.statement p) m.scope stack) :
    State.Fits W ⟨.signal .normal, stack, m⟩ :=
  ⟨hh, .inl ⟨p, trivial, fun _ => hat, hs⟩⟩

/-- A statement has ended early, in a way that its setting allows. -/
theorem fits_signal {x : Signal} (hh : W.HeapFits m.heap) (hx : p.Allows x) (hne : x ≠ .normal)
    (hs : Waits W m.heap.scopes (.statement p) m.scope stack) :
    State.Fits W ⟨.signal x, stack, m⟩ :=
  ⟨hh, .inl ⟨p, hx, fun h => absurd h hne, hs⟩⟩

theorem fits_runStmts {ss : List Stmt} (hh : W.HeapFits m.heap) (hk : W.Knows (.stmts ss) p)
    (hat : W.At m.heap.scopes [] m.scope p)
    (hs : Waits W m.heap.scopes (.statement (ss.foldl Setting.after p)) m.scope stack) :
    (runStmts ss stack m).Fits W := by
  cases ss with
  | nil => exact fits_normal hh hat hs
  | cons x rest =>
    exact ⟨hh, p, hk.child (by simp [Part.children]), hat,
      .sequence (hk.child (by simp [Part.children])) hs⟩

theorem fits_variablesFrom {bs : List (Token × Option Expr)} {q : Setting} (hh : W.HeapFits m.heap)
    (hk : ∀ x ∈ bs.filterMap Prod.snd, W.Knows (.expr x) p)
    (hat : W.At m.heap.scopes [] m.scope p)
    (hafter : W.At m.heap.scopes (bs.map fun b => b.1.lexeme) m.scope q)
    (hs : Waits W m.heap.scopes (.statement q) m.scope stack) :
    (variablesFrom bs stack m).Fits W := by
  induction bs generalizing m with
  | nil => exact fits_normal hh hafter hs
  | cons b rest ih =>
    obtain ⟨name, _ | value⟩ := b
    · have hext := m.heap.scopes.extends_define m.scope name.lexeme .nil
      exact ih (hh.define _ _ _) hk (hat.mono (.refl W) hext) (Chain.define hafter _)
        (hs.mono (.refl W) hext)
    · obtain ⟨hvalue, hrest⟩ := List.forall_mem_cons.1 hk
      exact ⟨hh, p, hvalue, hat, .var hrest hat hafter hs⟩

/-- Every method of a table was made of a declaration of the class. -/
theorem get?_methodTable {e : Nat} {methods : List FunctionDecl} {name : String} {f : Function}
    (h : (methodTable e methods).get? name = some f) :
    ∃ decl ∈ methods, f = ⟨decl, e, decide (decl.label = initializerName)⟩ := by
  have hfold : ∀ (ms : List FunctionDecl) (t : Table Function),
      (∀ name f, t.get? name = some f →
        ∃ decl ∈ methods, f = ⟨decl, e, decide (decl.label = initializerName)⟩) → ms ⊆ methods →
      ∀ name f, (ms.foldl (fun t decl =>
          t.set decl.label ⟨decl, e, decl.label = initializerName⟩) t).get? name = some f →
        ∃ decl ∈ methods, f = ⟨decl, e, decide (decl.label = initializerName)⟩ := by
    intro ms
    induction ms with
    | nil => exact fun t ht _ => ht
    | cons decl ms ih =>
      intro t ht hsub
      refine ih _ (fun name f hf => ?_) fun x hx => hsub (List.mem_cons_of_mem _ hx)
      by_cases hname : decl.label = name
      · subst hname
        rw [Table.get?_set_self] at hf
        exact ⟨decl, hsub List.mem_cons_self, (Option.some.inj hf).symm⟩
      · rw [Table.get?_set_ne hname] at hf
        exact ht name f hf
  exact hfold methods [] nofun (List.Subset.refl _) name f h

theorem fits_function {decl : FunctionDecl} (hh : W.HeapFits m.heap)
    (hk : W.Knows (.stmt (.function decl)) p) (hat : W.At m.heap.scopes [] m.scope p)
    (hs : Waits W m.heap.scopes (.statement (p.after (.function decl))) m.scope stack) :
    (execute (.function decl) stack m).Fits W := by
  have hext := m.heap.scopes.extends_define m.scope decl.label (.function m.heap.functions.size)
  have hafter : W.At (m.heap.scopes.define m.scope decl.label (.function m.heap.functions.size)) []
      m.scope (p.after (.function decl)) := by
    have hintro := hat.introduced decl.name.toList
    obtain ⟨_ | name, parameters, body, keyword⟩ := decl
    · exact hintro.mono (.refl W) hext
    · exact Chain.define hintro _
  have hfits : W.FunctionFits
      (m.heap.scopes.define m.scope decl.label (.function m.heap.functions.size))
      ⟨decl, m.scope, false⟩ :=
    World.FunctionFits.plain (hk.child (List.mem_singleton_self _)) hafter
  refine ⟨?_, .inl ⟨_, trivial, fun _ => hafter, hs.mono (.refl W) hext⟩⟩
  -- the function is in the heap before its name has a value, so both come in at once
  exact (hh.define m.scope decl.label (.function m.heap.functions.size)).newFunction hfits

theorem fits_classDecl {name : Token} {methods : List FunctionDecl} (hh : W.HeapFits m.heap)
    (hk : W.Knows (.stmt (.classDecl name methods)) p) (hat : W.At m.heap.scopes [] m.scope p)
    (hs : Waits W m.heap.scopes (.statement (p.after (.classDecl name methods))) m.scope stack) :
    (execute (.classDecl name methods) stack m).Fits W := by
  have hext := m.heap.scopes.extends_define m.scope name.lexeme (.class_ m.heap.classes.size)
  have hafter : W.At (m.heap.scopes.define m.scope name.lexeme (.class_ m.heap.classes.size)) []
      m.scope (p.after (.classDecl name methods)) := Chain.define (hat.introduced [name]) _
  refine ⟨?_, .inl ⟨_, trivial, fun _ => hafter, hs.mono (.refl W) hext⟩⟩
  refine (hh.define m.scope name.lexeme (.class_ m.heap.classes.size)).newClass ?_
  intro x f hf
  obtain ⟨decl, hm, rfl⟩ := get?_methodTable hf
  exact ⟨p.after (.classDecl name methods), hk.child (List.mem_map.2 ⟨decl, hm, rfl⟩), hafter, rfl⟩

theorem fits_block {body : List Stmt} (hh : W.HeapFits m.heap)
    (hk : W.Knows (.stmt (.block body)) p) (hat : W.At m.heap.scopes [] m.scope p)
    (hs : Waits W m.heap.scopes (.statement p) m.scope stack) :
    (execute (.block body) stack m).Fits (W.extend [.block body]) := by
  have hW := W.le_extend [.block body]
  have hext := m.heap.scopes.extends_child m.scope
  have hinner : (W.extend [.block body]).At (m.heap.scopes.child m.scope) []
      m.heap.scopes.nextScope (p.inBlock body) := Chain.child hat hh.log _
  refine fits_runStmts (hh.newScope m.scope _) ((hk.child (List.mem_singleton_self _)).mono hW)
    hinner ?_
  refine .restore ?_ ?_ (hat.mono hW hext) (hs.mono hW hext)
  · rw [Setting.inLoop_afterAll]
    rfl
  · rw [Setting.body_afterAll]
    rfl

/-- A statement other than a block makes no scope. -/
theorem fits_execute (hW : W.Sound) {x : Stmt} (hh : W.HeapFits m.heap) (hk : W.Knows (.stmt x) p)
    (hat : W.At m.heap.scopes [] m.scope p)
    (hs : Waits W m.heap.scopes (.statement (p.after x)) m.scope stack)
    (hblock : ∀ body, x ≠ .block body) : (execute x stack m).Fits W := by
  cases x with
  | block body => exact absurd rfl (hblock body)
  | expression value =>
    exact ⟨hh, p, hk.child (List.mem_singleton_self _), hat, .finish (.inl rfl) hat hs⟩
  | print value =>
    exact ⟨hh, p, hk.child (List.mem_singleton_self _), hat, .finish (.inr rfl) hat hs⟩
  | var bindings =>
    have hdeclared := hat.declared (bindings.map Prod.fst)
    refine fits_variablesFrom hh (hk.exprs fun _ hx => hx) hdeclared ?_ hs
    refine Chain.subset (hdeclared.defined (bindings.map Prod.fst)) fun y hy => .inr ?_
    simpa using hy
  | function decl => exact fits_function hh hk hat hs
  | classDecl name methods => exact fits_classDecl hh hk hat hs
  | conditional condition whenTrue whenFalse =>
    have hbranches := hk.branches hW
    have hafter : p.after (.conditional condition whenTrue whenFalse) = p := by
      have htrue := (hbranches whenTrue (.inl rfl)).2
      cases whenFalse with
      | none => rw [Setting.after, Stmt.after, htrue]
      | some whenFalse =>
        rw [Setting.after, Stmt.after, htrue, (hbranches whenFalse (.inr rfl)).2]
    rw [hafter] at hs
    refine ⟨hh, p, hk.child ?_, hat, .conditional hbranches hat hs⟩
    cases whenFalse <;> simp [Part.children]
  | loop condition body increment =>
    have hloop := hk.loop hW
    have hafter : p.after (.loop condition body increment) = p := by
      rw [Setting.after, Stmt.after, hloop.branch]
    rw [hafter] at hs
    exact ⟨hh, p, hloop.condition, hat, .condition hloop hat hs⟩
  | returning keyword value =>
    obtain ⟨hbody, hinit⟩ := ((hk.visited rfl).passes hW).returning
    cases value with
    | none =>
      have hallows : (p.after (.returning keyword none)).Allows (.returned .nil) :=
        ⟨hbody, fun _ => rfl⟩
      exact fits_signal hh hallows (by simp) hs
    | some value =>
      exact ⟨hh, p, hk.child (List.mem_singleton_self _), hat, .returning hbody (hinit rfl) hs⟩
  | breaking keyword =>
    have hformed : Stmt.isFormed p.inLoop (.breaking keyword) := (hk.visited rfl).formed hW
    rw [Stmt.isFormed] at hformed
    have hallows : (p.after (.breaking keyword)).Allows .exitLoop := hformed
    exact fits_signal hh hallows (by simp) hs
  | continuing keyword =>
    have hformed : Stmt.isFormed p.inLoop (.continuing keyword) := (hk.visited rfl).formed hW
    rw [Stmt.isFormed] at hformed
    have hallows : (p.after (.continuing keyword)).Allows .nextRound := hformed
    exact fits_signal hh hallows (by simp) hs

/-! ### Calls -/

/-- Parameters that were counted get all their values. -/
theorem fits_bindParameters {h : Heap} {e : Nat} {names : List Token} {values : List Value}
    {pending : List String} (hh : W.HeapFits h)
    (hat : W.At h.scopes (names.map Token.lexeme ++ pending) e p)
    (hlen : names.length = values.length) :
    W.HeapFits (bindParameters h e names values) ∧
      W.At (bindParameters h e names values).scopes pending e p ∧
      h.scopes.Extends (bindParameters h e names values).scopes := by
  induction names generalizing h values with
  | nil => exact ⟨hh, hat, .refl _⟩
  | cons name names ih =>
    cases values with
    | nil => cases hlen
    | cons v values =>
      obtain ⟨hh', hat', hext⟩ :=
        ih (hh.define e name.lexeme v) (Chain.define hat v) (Nat.succ.inj hlen)
      exact ⟨hh', hat', (h.scopes.extends_define e name.lexeme v).trans hext⟩

theorem fits_enterBody {f : Function} {arguments : List Value} (hh : W.HeapFits m.heap)
    (hf : W.FunctionFits m.heap.scopes f) (hlen : f.decl.parameters.length = arguments.length)
    (hs : Waits W m.heap.scopes .value m.scope stack) :
    (enterBody f arguments stack m).Fits (W.extend [.parameters f.decl, .body f.decl]) := by
  obtain ⟨p, kind, hk, hat, hkind, hinit⟩ := hf
  -- the scope of the parameters
  have hparameters : (W.extend [.parameters f.decl]).At (m.heap.scopes.child f.scope) []
      m.heap.scopes.nextScope
      ⟨{ p.context with body := kind }.enter [], .parameters f.decl :: p.sites, false⟩ :=
    Chain.child hat hh.log _
  obtain ⟨hh₁, hat₁, hext₁⟩ :=
    fits_bindParameters (hh.newScope f.scope (.parameters f.decl))
      (hparameters.introduced f.decl.parameters) hlen
  -- the scope of the body inside of it
  have hbody := Chain.child hat₁ hh₁.log (.body f.decl)
  have hext := (m.heap.scopes.extends_child f.scope).trans
    (hext₁.trans (Scopes.extends_child _ m.heap.scopes.nextScope))
  have hworld := W.extend_extend [.parameters f.decl] [.body f.decl]
  rw [List.singleton_append] at hworld
  have hW := W.le_extend [.parameters f.decl, .body f.decl]
  rw [← hworld] at hW ⊢
  refine fits_runStmts (hh₁.newScope m.heap.scopes.nextScope (.body f.decl)) (hk.mono hW) hbody ?_
  refine Waits.leaveBody (Setting.inLoop_afterAll _ _) ?_
    (.body hkind hinit (hs.mono hW hext))
  rw [Setting.body_afterAll]
  exact Context.body_introduced _ _

/-- A method that is bound to an instance is a function inside of the scope of `this`. -/
theorem fits_bindMethod {h : Heap} {f : Function} (hh : W.HeapFits h)
    (hf : W.MethodFits h.scopes f) (r : Nat) :
    (W.extend [.bound f.decl]).HeapFits (h.bindMethod f r).2 ∧
      (W.extend [.bound f.decl]).FunctionFits (h.bindMethod f r).2.scopes (h.bindMethod f r).1 ∧
      h.scopes.Extends (h.bindMethod f r).2.scopes := by
  obtain ⟨p, hk, hat, hinit⟩ := hf
  have hthis := ((Chain.child hat hh.log (.bound f.decl)).mark_true "this").define (.instance_ r)
  refine ⟨(hh.newScope f.scope (.bound f.decl)).define _ _ _, ?_, ?_⟩
  · refine ⟨p.inClass f.decl, f.decl.methodBody, hk.mono (W.le_extend _), hthis, ?_, fun hi => ?_⟩
    · unfold FunctionDecl.methodBody
      split <;> exact nofun
    · have hlabel : f.decl.label = initializerName := of_decide_eq_true (hinit ▸ hi)
      rw [FunctionDecl.methodBody, if_pos hlabel]
  · exact (h.scopes.extends_child f.scope).trans (Scopes.extends_define _ _ _ _)

/-- The scopes that a step from the state can make, outermost first. -/
def makes : State → List Site
  | ⟨.execute (.block body), _, _⟩ => [.block body]
  | ⟨.invoke (.function r) _ _, _, m⟩ =>
    [.parameters (m.heap.function r).decl, .body (m.heap.function r).decl]
  | ⟨.invoke (.class_ r) _ _, _, m⟩ =>
    match (m.heap.class_ r).methods.get? initializerName with
    | some f => [.bound f.decl, .parameters f.decl, .body f.decl]
    | none => []
  | ⟨.value (.instance_ r), .get name :: _, m⟩ =>
    match (m.heap.classOf r).methods.get? name.lexeme with
    | some f => [.bound f.decl]
    | none => []
  | _ => []

theorem fits_instantiate {r : Nat} {arguments : List Value} (hh : W.HeapFits m.heap)
    (hlen : ∀ f, (m.heap.class_ r).methods.get? initializerName = some f →
      f.decl.parameters.length = arguments.length)
    (hs : Waits W m.heap.scopes .value m.scope stack) (line : Nat) (stack' : List Frame) :
    (instantiate r arguments stack m).Fits
      (W.extend (makes ⟨.invoke (.class_ r) arguments line, stack', m⟩)) := by
  unfold instantiate makes
  dsimp only
  have hh' : W.HeapFits (m.heap.newInstance r).2 := hh.congr rfl rfl rfl
  cases hf : (m.heap.class_ r).methods.get? initializerName with
  | none =>
    have hf' : ((m.heap.newInstance r).2.class_ r).methods.get? initializerName = none := hf
    rw [hf', World.extend_nil]
    exact ⟨hh', hs⟩
  | some f =>
    have hf' : ((m.heap.newInstance r).2.class_ r).methods.get? initializerName = some f := hf
    rw [hf']
    obtain ⟨hbound, hfits, hext⟩ := fits_bindMethod hh' (hh'.methods r _ f hf') m.heap.instances.size
    have hworld := W.extend_extend [.bound f.decl] [.parameters f.decl, .body f.decl]
    rw [List.singleton_append] at hworld
    rw [← hworld]
    exact fits_enterBody (m := { m with heap := _ }) hbound hfits (hlen f hf)
      ((hs.mono (W.le_extend _) hext).frame rfl)

theorem fits_enterCallee {callee : Value} {arguments : List Value} {line : Nat} {arity : Arity}
    (hh : W.HeapFits m.heap) (harity : arity? m.heap callee = some arity)
    (haccepts : arity.accepts arguments.length)
    (hs : Waits W m.heap.scopes .value m.scope stack) (stack' : List Frame) :
    (enterCallee callee arguments line stack m).Fits W ∨
      (enterCallee callee arguments line stack m).Fits
        (W.extend (makes ⟨.invoke callee arguments line, stack', m⟩)) := by
  cases callee with
  | builtin b =>
    refine .inl (fits_settle (b.apply_fits hh _ _ _) ?_ (b.apply_harmless _ _ _ _))
    show Waits W (b.apply m.heap m.time line arguments).2.scopes .value m.scope stack
    rwa [b.scopes_apply]
  | function r =>
    cases harity
    exact .inr (fits_enterBody hh (hh.functions r) (eq_of_beq haccepts) hs)
  | class_ r =>
    refine .inr (fits_instantiate hh (fun f hf => ?_) hs line stack')
    simp only [arity?, hf] at harity
    cases harity
    exact eq_of_beq haccepts
  | _ => cases harity

theorem fits_invoke {callee : Value} {arguments : List Value} {line : Nat}
    (hh : W.HeapFits m.heap) (hs : Waits W m.heap.scopes .value m.scope stack) :
    (invoke callee arguments line stack m).Fits W ∨
      (invoke callee arguments line stack m).Fits
        (W.extend (makes ⟨.invoke callee arguments line, stack, m⟩)) := by
  unfold invoke
  split
  · exact .inl ⟨hh, rfl⟩
  · next arity harity =>
    split
    · exact .inl ⟨hh, rfl⟩
    · next haccepts =>
      split
      · exact .inl ⟨hh, Fault.isLeak_withTrace _ _⟩
      · have hleave : Waits W m.heap.scopes .value m.scope (.leave :: stack) := hs.frame rfl
        have hcount : arity.accepts arguments.length := by simpa using haccepts
        have hmakes : makes ⟨.invoke callee arguments line, stack, m⟩ = makes ⟨.invoke callee
            arguments line, stack, m.enterCall (calleeName m.heap callee)⟩ := by
          cases callee <;> rfl
        rw [hmakes]
        exact fits_enterCallee (m := m.enterCall _) hh harity hcount hleave stack

theorem fits_property {r : Nat} {name : Token} (hh : W.HeapFits m.heap)
    (hs : Waits W m.heap.scopes .value m.scope stack) :
    (property r name stack m).Fits W ∨
      (property r name stack m).Fits
        (W.extend (makes ⟨.value (.instance_ r), .get name :: stack, m⟩)) := by
  unfold property makes
  dsimp only
  split
  · exact .inl ⟨hh, hs⟩
  · cases hf : (m.heap.classOf r).methods.get? name.lexeme with
    | none => exact .inl ⟨hh, rfl⟩
    | some f =>
      obtain ⟨hbound, hfits, hext⟩ := fits_bindMethod hh (hh.methods _ _ f hf) r
      exact .inr ⟨hbound.newFunction hfits, hs.mono (W.le_extend _) hext⟩

/-! ### Outcomes -/

theorem fits_nextRound {loop : Loop} (hh : W.HeapFits m.heap) (hl : W.KnowsLoop loop p)
    (hat : W.At m.heap.scopes [] m.scope p)
    (hs : Waits W m.heap.scopes (.statement p) m.scope stack) :
    (nextRound loop stack m).Fits W := by
  unfold nextRound
  split
  · next e he => exact ⟨hh, p, hl.increment e he, hat, .increment hl hat hs⟩
  · exact ⟨hh, p, hl.condition, hat, .condition hl hat hs⟩

/-- A value reaches a frame that gives a value in its turn. -/
theorem fits_giveOperand {v : Value} {frame : Frame} {es : List Expr} (hh : W.HeapFits m.heap)
    (hf : frame.operands? = some es)
    (hk : ∀ x ∈ es, ∃ p, W.Knows (.expr x) p ∧ W.At m.heap.scopes [] m.scope p)
    (hs : Waits W m.heap.scopes .value m.scope stack) (hget : ∀ name, frame ≠ .get name) :
    (giveValue v frame stack m).Fits W := by
  have heval : ∀ x ∈ es, ∀ stack', Waits W m.heap.scopes .value m.scope stack' →
      State.Fits W ⟨.evaluate x, stack', m⟩ := by
    intro x hx stack' hs'
    obtain ⟨p, hp, hat⟩ := hk x hx
    exact ⟨hh, p, hp, hat, hs'⟩
  cases frame with
  | get name => exact absurd rfl (hget name)
  | unary operator fixity => exact fits_settle hh hs (Heap.unary_harmless _ _ _ _)
  | binaryLeft operator right =>
    cases hf
    exact heval right List.mem_cons_self _ (hs.frame rfl)
  | binaryRight left operator => exact fits_settle hh hs (Heap.binary_harmless _ _ _ _)
  | logical operator right =>
    cases hf
    simp only [giveValue]
    split
    · exact ⟨hh, hs⟩
    · exact heval right List.mem_cons_self _ hs
  | ternary whenTrue whenFalse =>
    cases hf
    simp only [giveValue]
    split
    · exact heval whenTrue (by simp) _ hs
    · exact heval whenFalse (by simp) _ hs
  | callee paren arguments =>
    cases hf
    simp only [giveValue]
    split
    · exact fits_argumentsFrom hh hk hs
    · exact ⟨hh, rfl⟩
  | arguments callee paren done todo =>
    cases hf
    exact fits_argumentsFrom hh hk hs
  | elements done todo =>
    cases hf
    exact fits_elementsFrom hh hk hs
  | collection bracket right =>
    cases hf
    exact heval right List.mem_cons_self _ (hs.frame rfl)
  | position collection bracket => exact fits_settle hh hs (Heap.index_harmless _ _ _ _)
  | setObject name value =>
    cases hf
    simp only [giveValue]
    split
    · exact heval value List.mem_cons_self _ (hs.frame rfl)
    · exact ⟨hh, rfl⟩
  | setValue target name => exact ⟨hh.congr rfl rfl rfl, hs⟩
  | construct target => exact ⟨hh, hs⟩
  | leave => exact ⟨hh, hs⟩
  | _ => cases hf

theorem fits_giveValue {v : Value} {frame : Frame} (hh : W.HeapFits m.heap)
    (hs : Waits W m.heap.scopes .value m.scope (frame :: stack)) :
    (giveValue v frame stack m).Fits W ∨
      (giveValue v frame stack m).Fits (W.extend (makes ⟨.value v, frame :: stack, m⟩)) := by
  cases hs with
  | operands hf hk hs =>
    by_cases hget : ∃ name, frame = .get name
    · obtain ⟨name, rfl⟩ := hget
      cases v with
      | instance_ r => exact fits_property hh hs
      | _ => exact .inl ⟨hh, rfl⟩
    · exact .inl (fits_giveOperand hh hf hk hs fun name hname => hget ⟨name, hname⟩)
  | @assign p e reference name value stack hv hat hs =>
    refine .inl ?_
    simp only [giveValue]
    split
    · exact ⟨hh.define _ _ _, hs.mono (.refl W) (Scopes.extends_define _ _ _ _)⟩
    · exact ⟨hh, rfl⟩
  | @finish p e frame stack hf hat hs =>
    refine .inl ?_
    rcases hf with rfl | rfl
    · exact fits_normal hh hat hs
    · exact fits_normal hh hat hs
  | @var p q e name rest stack hk hat hafter hs =>
    have hext := m.heap.scopes.extends_define m.scope name.lexeme v
    exact .inl (fits_variablesFrom (hh.define _ _ v) hk (hat.mono (.refl W) hext)
      (Chain.define hafter v) (hs.mono (.refl W) hext))
  | @conditional p e whenTrue whenFalse stack hk hat hs =>
    have hbranch : ∀ x, x = whenTrue ∨ whenFalse = some x →
        State.Fits W ⟨.execute x, stack, m⟩ := by
      intro x hx
      obtain ⟨hx, hafter⟩ := hk x hx
      refine ⟨hh, p, hx, hat, ?_⟩
      rwa [Setting.after, hafter]
    refine .inl ?_
    simp only [giveValue]
    split
    · exact hbranch whenTrue (.inl rfl)
    · split
      · next x => exact hbranch x (.inr rfl)
      · exact fits_normal hh hat hs
  | @condition p e loop stack hl hat hs =>
    refine .inl ?_
    simp only [giveValue]
    split
    · refine ⟨hh, { p with inLoop := true }, hl.body, hat, ?_⟩
      rw [Setting.after, hl.branch]
      exact .round hl hat hs
    · exact fits_normal hh hat hs
  | @increment p e loop stack hl hat hs =>
    exact .inl ⟨hh, p, hl.condition, hat, .condition hl hat hs⟩
  | @returning p e stack hbody hinit hs =>
    exact .inl (fits_signal hh ⟨hbody, fun h => absurd h hinit⟩ (by simp) hs)

theorem allows_of_eq {p q : Setting} {x : Signal} (h : q.Allows x) (hloop : q.inLoop = p.inLoop)
    (hbody : q.context.body = p.context.body) : p.Allows x := by
  cases x with
  | normal => trivial
  | exitLoop | nextRound => exact hloop.symm.trans h
  | returned v =>
    unfold Setting.Allows at h ⊢
    rwa [← hbody]

/-- The body of a function ends normally or with `return`. -/
theorem bodyAllows {q : Setting} {x : Signal} (h : q.Allows x) (hloop : q.inLoop = false) :
    q.context.body.Allows x := by
  cases x with
  | normal => trivial
  | exitLoop | nextRound => exact Bool.false_ne_true (hloop.symm.trans h)
  | returned v => exact h.2

theorem bodyValue_harmless (f : Function) (x : Signal) (m : Machine) :
    Harmless (bodyValue f x m) := by
  unfold bodyValue
  split
  · split
    · exact harmless_ok _
    · exact harmless_error ⟨rfl, rfl⟩
  · split <;> exact harmless_ok _

theorem fits_giveSignal {x : Signal} {frame : Frame} (hfits : State.Fits W ⟨.signal x, frame :: stack, m⟩) :
    (giveSignal x frame stack m).Fits W := by
  obtain ⟨hh, ⟨p, hx, hat, hs⟩ | ⟨kind, hx, hs⟩⟩ := hfits
  · cases hs with
    | @sequence p e rest stack hk hs =>
      cases x with
      | normal => exact fits_runStmts hh hk (hat rfl) hs
      | exitLoop | nextRound | returned =>
        refine fits_signal hh (allows_of_eq hx ?_ ?_) (by simp) hs
        · exact (Setting.inLoop_afterAll rest p).symm
        · exact (Setting.body_afterAll rest p).symm
    | @round p e loop stack hl hat' hs =>
      cases x with
      | normal | nextRound => exact fits_nextRound hh hl hat' hs
      | exitLoop => exact fits_normal hh hat' hs
      | returned v => exact fits_signal (p := p) hh hx (by simp) hs
    | @restore p q e outer stack hloop hbody hat' hs =>
      exact ⟨hh, .inl ⟨p, allows_of_eq hx hloop hbody, fun _ => hat', hs⟩⟩
    | leaveBody hloop hbody hs =>
      subst hbody
      exact ⟨hh, .inr ⟨_, bodyAllows hx hloop, hs⟩⟩
  · cases hs with
    | body hkind hinit hs => exact fits_settle hh hs (bodyValue_harmless _ x m)

theorem fits_giveFault {f : Fault} {frame : Frame} (hh : W.HeapFits m.heap) (hf : f.isLeak = false) :
    (giveFault f frame stack m).Fits W := by
  unfold giveFault
  split
  · exact ⟨hh, hf⟩
  · exact ⟨hh, (Fault.isLeak_withTrace m.calls f).trans hf⟩
  · exact ⟨hh, hf⟩

/-! ### Steps -/

theorem fits_step_or (hW : W.Sound) {st : State} (h : st.Fits W) :
    st.step.Fits W ∨ st.step.Fits (W.extend st.makes) := by
  obtain ⟨focus, stack, m⟩ := st
  cases focus with
  | evaluate e =>
    obtain ⟨hh, p, hk, hat, hs⟩ := h
    exact .inl (fits_evaluate hh hk hat hs)
  | execute x =>
    obtain ⟨hh, p, hk, hat, hs⟩ := h
    by_cases hblock : ∃ body, x = .block body
    · obtain ⟨body, rfl⟩ := hblock
      exact .inr (fits_block hh hk hat hs)
    · exact .inl (fits_execute hW hh hk hat hs fun body hx => hblock ⟨body, hx⟩)
  | invoke callee arguments line => exact fits_invoke h.heap h.focus
  | value v =>
    cases stack with
    | nil => exact .inl h
    | cons frame stack => exact fits_giveValue h.heap h.focus
  | signal x =>
    cases stack with
    | nil => exact .inl h
    | cons frame stack => exact .inl (fits_giveSignal h)
  | fault f =>
    cases stack with
    | nil => exact .inl h
    | cons frame stack => exact .inl (fits_giveFault h.heap h.focus)

/-- What the scopes that the next step makes stand for. -/
def opens (st : State) : List Site :=
  st.makes.take (st.step.machine.heap.scopes.nextScope - st.machine.heap.scopes.nextScope)

/-- A step keeps states fitting; the scopes it makes are made for what they stand for. -/
theorem fits_step (hW : W.Sound) {st : State} (h : st.Fits W) :
    st.step.Fits (W.extend st.opens) := by
  have hlog := h.heap.log
  rcases fits_step_or hW h with hstep | hstep
  · have hopens : st.opens = [] := by
      rw [opens, ← hlog, ← hstep.heap.log, Nat.sub_self, List.take_zero]
    rwa [hopens, World.extend_nil]
  · have hopens : st.opens = st.makes := by
      rw [opens, ← hlog, ← hstep.heap.log, World.extend, List.length_append,
        Nat.add_sub_cancel_left, List.take_length]
    rwa [hopens]

end State

end TreeWalk
