import TreeWalk.Proofs.Composition
import TreeWalk.Proofs.Positions

/-!
# The numbering of all trees

A production takes the references of its tree from the counter of the cursor, in order, and no
production turns the counter back (`Production.Numbers`, `allNumbered`). This holds of every answer, also
where faults inside were recovered from or where an operand turned out to be a target, so that
references were given out to nodes that no tree carries any more. So all trees that are read from a list
of tokens carry different references, also those of declarations that are refused
(`Cursor.between_trees`).

Operators and calls are put around an operand that was read before: its references are `held` while
the rest is read.
-/

namespace TreeWalk

namespace Production

variable {α β : Type}

/-- Where the references `held` were given out last, those of the answer are given out in order. -/
def Numbers (held : List Nat) (p : Production α) (refs : α → List Nat) : Prop :=
  ∀ c n a c', Between n held c.nextReference → p c = .done a c' → Between n (refs a) c'.nextReference

/-! ### The parts -/

section

variable {held : List Nat} {refs : α → List Nat} {refs' : β → List Nat} {p : Production α}
  {f : α → Production β}

theorem numbers_pure {a : α} (h : refs a = held) : Numbers held (pure a) refs := by
  intro c n _ _ hheld hdone
  obtain ⟨rfl, rfl⟩ := pure_done hdone
  exact h ▸ hheld

/-- Some of the references are no longer carried. -/
theorem numbers_drop {a : α} (h : (refs a).Sublist held) : Numbers held (pure a) refs := by
  intro c n _ _ hheld hdone
  obtain ⟨rfl, rfl⟩ := pure_done hdone
  exact hheld.sublist h

theorem numbers_fail (cause : SyntaxCause) : Numbers held (fail cause) refs :=
  nofun

theorem numbers_failAt (t : Token) (cause : SyntaxCause) : Numbers held (failAt t cause) refs :=
  nofun

theorem numbers_freshReference : Numbers [] freshReference fun r => [r] := by
  intro c n r c' hheld hdone
  obtain ⟨rfl, rfl⟩ := freshReference_done hdone
  exact hheld.append (.one _)

/-- What is read first is held while the rest is read. -/
theorem numbers_bind (hp : Numbers [] p refs) (hf : ∀ a, Numbers (held ++ refs a) (f a) refs') :
    Numbers held (p >>= f) refs' := by
  intro c n b c' hheld hdone
  obtain ⟨a, c₁, hp₁, hf₁⟩ := bind_done hdone
  have ha := hp c c.nextReference a c₁ (.none (Nat.le_refl _)) hp₁
  exact hf a c₁ n b c' (hheld.append ha) hf₁

/-- What is read first carries no references. -/
theorem numbers_skip (hp : p.Steady) (hf : ∀ a, Numbers held (f a) refs') :
    Numbers held (p >>= f) refs' := by
  intro c n b c' hheld hdone
  obtain ⟨a, c₁, hp₁, hf₁⟩ := bind_done hdone
  have hle := (hp.of_done hp₁).reference
  refine hf a c₁ n b c' ?_ hf₁
  simpa using hheld.append (.none hle)

/-- What is read next takes over what is held. -/
theorem numbers_continue (hp : Numbers held p refs) (hf : ∀ a, Numbers (refs a) (f a) refs') :
    Numbers held (p >>= f) refs' := by
  intro c n b c' hheld hdone
  obtain ⟨a, c₁, hp₁, hf₁⟩ := bind_done hdone
  exact hf a c₁ n b c' (hp c n a c₁ hheld hp₁) hf₁

theorem numbers_map {γ : Type} {g : α → γ} {refs' : γ → List Nat} (hp : Numbers [] p refs)
    (h : ∀ a, refs' (g a) = refs a) : Numbers [] (do return g (← p)) refs' :=
  numbers_bind hp fun a => numbers_pure (h a)

theorem numbers_accept {q : Token → Bool} {f : Option Token → Production β}
    (hnone : Numbers held (f none) refs') (hsome : ∀ t, Numbers held (f (some t)) refs') :
    Numbers held (accept? q >>= f) refs' := by
  refine numbers_skip (steady_accept? q) fun o => ?_
  cases o with
  | none => exact hnone
  | some t => exact hsome t

theorem numbers_if {p : Production Bool} {q q' : Production β} (hp : p.Steady)
    (hq : Numbers held q refs') (hq' : Numbers held q' refs') :
    Numbers held (do if ← p then q else q') refs' := by
  refine numbers_skip hp fun b => ?_
  cases b with
  | true => exact hq
  | false => exact hq'

theorem numbers_look {next : Token → Option (Production α)} {other : Production α}
    (hnext : ∀ t p, next t = some p → Numbers held p refs) (hother : Numbers held other refs) :
    Numbers held (look next other) refs := by
  intro c n a c' hheld hdone
  unfold look at hdone
  split at hdone
  · exact hother c n a c' hheld hdone
  · next t rest hrest =>
    split at hdone
    · next p hp => exact hnext t p hp { c with rest := rest } n a c' hheld hdone
    · exact hother c n a c' hheld hdone

theorem numbers_withLoops (enter : Nat → Nat) (leave : Nat → Nat → Nat) (hp : Numbers held p refs) :
    Numbers held (withLoops enter leave p) refs := by
  intro c n a c' hheld hdone
  unfold withLoops at hdone
  split at hdone
  · next hp₁ =>
    have hbetween := hp { c with loops := enter c.loops } n _ _ hheld hp₁
    cases hdone
    exact hbetween
  · cases hdone

/-- A part that is not read to its end keeps the references that were given out. -/
theorem numbers_recovering (hsteady : p.Steady) (hp : Numbers [] p refs) :
    Numbers [] (recovering p) fun o => o.elim [] refs := by
  intro c n a c' hheld hdone
  have hfollows := hsteady c
  unfold recovering at hdone
  split at hdone
  · next hp₁ =>
    cases hdone
    exact hp c n _ _ hheld hp₁
  · next hp₁ =>
    cases hdone
    rw [hp₁] at hfollows
    exact .none (Nat.le_trans hheld.le hfollows.reference)

end

/-- What the productions that count down fuel do with references. -/
structure AllNumbered (fuel : Nat) : Prop where
  expression : Numbers [] (expression fuel) Expr.references
  ternary : Numbers [] (ternary fuel) Expr.references
  binary : ∀ levels, Numbers [] (binary fuel levels) Expr.references
  binaryRest : ∀ level tighter left,
    Numbers left.references (binaryRest fuel level tighter left) Expr.references
  unary : Numbers [] (unary fuel) Expr.references
  callRest : ∀ callee, Numbers callee.references (callRest fuel callee) Expr.references
  arguments : ∀ closing what,
    Numbers [] (arguments fuel closing what) fun a => referencesExprs a.1
  argumentList : ∀ allowed, Numbers [] (argumentList fuel allowed) referencesExprs
  primary : Numbers [] (primary fuel) Expr.references
  functionTail : ∀ kind name keyword,
    Numbers [] (functionTail fuel kind name keyword) FunctionDecl.references
  function : ∀ kind, Numbers [] (function fuel kind) FunctionDecl.references
  block : Numbers [] (block fuel) referencesStmts
  declarations : Numbers [] (declarations fuel) referencesStmts
  declaration : Numbers [] (declaration fuel) Stmt.references
  methods : Numbers [] (methods fuel) referencesMethods
  varDeclaration : Numbers [] (varDeclaration fuel) Stmt.references
  bindings : Numbers [] (bindings fuel) referencesBindings
  statement : Numbers [] (statement fuel) Stmt.references
  loopBody : Numbers [] (loopBody fuel) Stmt.references
  forStart : Numbers [] (forStart fuel) fun s => s.elim [] Stmt.references
  optionalExpression : ∀ closing, Numbers [] (optionalExpression fuel closing) referencesOption
  forStatement : Numbers [] (forStatement fuel) Stmt.references
  ifStatement : Numbers [] (ifStatement fuel) Stmt.references
  whileStatement : Numbers [] (whileStatement fuel) Stmt.references
  returnStatement : ∀ keyword, Numbers [] (returnStatement fuel keyword) Stmt.references
  blockStatement : Numbers [] (blockStatement fuel) Stmt.references
  printStatement : Numbers [] (printStatement fuel) Stmt.references
  expressionStatement : Numbers [] (expressionStatement fuel) Stmt.references

theorem numbers_jumpStatement {outside : SyntaxCause} {what : Expected} {node : Token → Stmt}
    {keyword : Token} (h : (node keyword).references = []) :
    Numbers [] (jumpStatement outside what node keyword) Stmt.references := by
  have hjump : Numbers [] (do
      let _ ← symbol .semicolon what
      return node keyword) Stmt.references :=
    numbers_skip (steady_expect _ _) fun _ => numbers_pure h
  intro c n s c' hheld hdone
  unfold jumpStatement at hdone
  split at hdone
  · cases hdone
  · exact hjump c n s c' hheld hdone

theorem allNumbered_zero : AllNumbered 0 := by
  constructor <;> intros <;> exact numbers_fail _

section

variable {fuel : Nat} (ih : AllNumbered fuel)

include ih

/-! ### Expressions -/

theorem numbers_expression : Numbers [] (expression (fuel + 1)) Expr.references := by
  rw [expression]
  refine numbers_bind ih.ternary fun target => numbers_accept (numbers_pure rfl) fun equals => ?_
  refine numbers_bind ih.expression fun value => ?_
  cases target with
  | «variable» reference name =>
    -- the reference of the name is given up, and the assignment gets one of its own
    refine numbers_bind numbers_freshReference fun reference' => numbers_drop ?_
    rw [Expr.references, List.append_assoc]
    exact List.sublist_append_right _ _
  | get object name => exact numbers_pure (by simp [Expr.references])
  | _ => exact numbers_failAt _ _

theorem numbers_ternary : Numbers [] (ternary (fuel + 1)) Expr.references := by
  rw [ternary]
  refine numbers_bind (ih.binary _) fun condition => numbers_accept (numbers_pure rfl) fun _ => ?_
  refine numbers_bind ih.ternary fun whenTrue => numbers_skip (steady_expect _ _) fun _ => ?_
  exact numbers_bind ih.ternary fun whenFalse => numbers_pure (by simp [Expr.references])

theorem numbers_binary (levels : List Level) :
    Numbers [] (binary (fuel + 1) levels) Expr.references := by
  cases levels with
  | nil =>
    rw [binary]
    exact ih.unary
  | cons level tighter =>
    rw [binary]
    exact numbers_continue (ih.binary tighter) fun left => ih.binaryRest level tighter left

theorem numbers_binaryRest (level : Level) (tighter : List Level) (left : Expr) :
    Numbers left.references (binaryRest (fuel + 1) level tighter left) Expr.references := by
  rw [binaryRest]
  refine numbers_accept (numbers_pure rfl) fun operator => ?_
  refine numbers_bind (ih.binary tighter) fun right => ?_
  rw [← references_node level left right operator]
  exact ih.binaryRest level tighter _

theorem numbers_unary : Numbers [] (unary (fuel + 1)) Expr.references := by
  rw [unary]
  refine numbers_accept ?_ fun operator => numbers_map ih.unary fun operand => by rw [Expr.references]
  refine numbers_continue ih.primary fun operand => ?_
  refine numbers_continue (ih.callRest operand) fun operand => ?_
  exact numbers_accept (numbers_pure rfl) fun operator => numbers_pure (by rw [Expr.references])

theorem numbers_callRest (callee : Expr) :
    Numbers callee.references (callRest (fuel + 1) callee) Expr.references := by
  rw [callRest]
  refine numbers_accept ?_ fun _ => ?_
  · refine numbers_accept ?_ fun bracket => ?_
    · refine numbers_accept (numbers_pure rfl) fun _ => numbers_skip (steady_expect _ _) fun name => ?_
      have hcall := ih.callRest (.get callee name)
      rwa [Expr.references] at hcall
    · refine numbers_bind ih.expression fun position => numbers_skip (steady_expect _ _) fun _ => ?_
      have hcall := ih.callRest (.index callee bracket position)
      rwa [Expr.references] at hcall
  · refine numbers_bind (ih.arguments _ _) fun read => ?_
    obtain ⟨values, paren⟩ := read
    have hcall := ih.callRest (.call callee paren values)
    rwa [Expr.references] at hcall

theorem numbers_arguments (closing : Symbol) (what : Expected) :
    Numbers [] (arguments (fuel + 1) closing what) fun a => referencesExprs a.1 := by
  rw [arguments]
  have hclose (values : List Expr) : Numbers (referencesExprs values) (do
      let close ← symbol closing what
      return (values, close)) fun a => referencesExprs a.1 :=
    numbers_skip (steady_expect _ _) fun _ => numbers_pure rfl
  refine numbers_skip (steady_check _) fun closes => ?_
  cases closes with
  | true => exact numbers_continue (numbers_pure rfl) hclose
  | false => exact numbers_continue (ih.argumentList _) hclose

theorem numbers_argumentList (allowed : Nat) :
    Numbers [] (argumentList (fuel + 1) allowed) referencesExprs := by
  cases allowed with
  | zero =>
    rw [argumentList]
    exact numbers_fail _
  | succ allowed =>
    rw [argumentList]
    refine numbers_bind ih.expression fun value => numbers_accept ?_ fun _ => ?_
    · exact numbers_pure (by simp [referencesExprs])
    · exact numbers_bind (ih.argumentList allowed) fun values =>
        numbers_pure (by simp [referencesExprs])

theorem numbers_operandBehind {t : Token} {p : Production Expr} (h : operandBehind fuel t = some p) :
    Numbers [] p Expr.references := by
  unfold operandBehind at h
  split at h <;> cases h
  iterate 5 exact numbers_pure (by rw [Expr.references])
  iterate 2 exact numbers_map numbers_freshReference fun _ => by rw [Expr.references]
  · refine numbers_bind ih.expression fun inner => numbers_skip (steady_expect _ _) fun _ => ?_
    exact numbers_pure (by simp [Expr.references])
  · exact numbers_bind (ih.arguments _ _) fun _ => numbers_pure (by simp [Expr.references])
  · refine numbers_skip (steady_expect _ _) fun _ => ?_
    exact numbers_map (ih.functionTail _ _ _) fun _ => by rw [Expr.references]

theorem numbers_primary : Numbers [] (primary (fuel + 1)) Expr.references := by
  rw [primary_eq_look]
  exact numbers_look (fun _ _ h => numbers_operandBehind ih h) (numbers_fail _)

/-! ### Functions -/

theorem numbers_functionTail (kind : FunctionKind) (name : Option Token) (keyword : Token) :
    Numbers [] (functionTail (fuel + 1) kind name keyword) FunctionDecl.references := by
  rw [functionTail]
  have hbody (names : List Token) : Numbers [] (do
      let _ ← symbol .rightParen .closeParameters
      let _ ← symbol .leftBrace (.openFunctionBody kind)
      let body ← withLoops (fun _ => 0) (fun before _ => before) (block fuel)
      return (⟨name, names, body, keyword⟩ : FunctionDecl)) FunctionDecl.references := by
    refine numbers_skip (steady_expect _ _) fun _ => numbers_skip (steady_expect _ _) fun _ => ?_
    exact numbers_map (numbers_withLoops _ _ ih.block) fun _ => by rw [FunctionDecl.references]
  refine numbers_skip (steady_check _) fun closes => ?_
  cases closes with
  | true => exact numbers_skip (steady_pure _) hbody
  | false => exact numbers_skip (composed_parameters _).steady hbody

theorem numbers_function (kind : FunctionKind) :
    Numbers [] (function (fuel + 1) kind) FunctionDecl.references := by
  rw [function]
  refine numbers_skip (steady_expect _ _) fun name => numbers_skip (steady_expect _ _) fun _ => ?_
  exact ih.functionTail kind (some name) name

theorem numbers_block : Numbers [] (block (fuel + 1)) referencesStmts := by
  rw [block]
  refine numbers_bind ih.declarations fun body => numbers_skip (steady_expect _ _) fun _ => ?_
  exact numbers_pure rfl

theorem numbers_declarations : Numbers [] (declarations (fuel + 1)) referencesStmts := by
  rw [declarations]
  refine numbers_if steady_endsBlock (numbers_pure rfl) ?_
  refine numbers_bind (numbers_recovering (allSteady fuel).declaration ih.declaration) fun first => ?_
  cases first with
  | some s =>
    exact numbers_bind ih.declarations fun rest => numbers_pure (by simp [referencesStmts])
  | none => exact ih.declarations

/-! ### Declarations and statements -/

theorem numbers_declaration : Numbers [] (declaration (fuel + 1)) Stmt.references := by
  rw [declaration]
  have hfunction : Numbers [] (do return Stmt.function (← function fuel .function)) Stmt.references :=
    numbers_map (ih.function _) fun _ => by rw [Stmt.references]
  refine numbers_accept ?_ fun _ => ?_
  · refine numbers_if steady_startsFunction (numbers_accept hfunction fun _ => hfunction) ?_
    exact numbers_accept ih.statement fun _ => ih.varDeclaration
  · refine numbers_skip (steady_expect _ _) fun name => numbers_skip (steady_expect _ _) fun _ => ?_
    refine numbers_bind ih.methods fun members => numbers_skip (steady_expect _ _) fun _ => ?_
    exact numbers_pure (by rw [Stmt.references]; rfl)

theorem numbers_methods : Numbers [] (methods (fuel + 1)) referencesMethods := by
  rw [methods]
  refine numbers_if steady_endsBlock (numbers_pure rfl) ?_
  refine numbers_bind (ih.function _) fun first => numbers_bind ih.methods fun rest => ?_
  exact numbers_pure (by simp [referencesMethods])

theorem numbers_varDeclaration : Numbers [] (varDeclaration (fuel + 1)) Stmt.references := by
  rw [varDeclaration]
  refine numbers_bind ih.bindings fun bindings => numbers_skip (steady_expect _ _) fun _ => ?_
  exact numbers_pure (by rw [Stmt.references]; rfl)

theorem numbers_bindings : Numbers [] (bindings (fuel + 1)) referencesBindings := by
  rw [bindings]
  refine numbers_skip (steady_expect _ _) fun name => ?_
  have hcons (value : Option Expr) (rest : List (Token × Option Expr)) :
      referencesBindings ((name, value) :: rest) = referencesOption value ++ referencesBindings rest := by
    cases value <;> rw [referencesBindings] <;> rfl
  have hlast (value : Option Expr) :
      Numbers (referencesOption value) (pure [(name, value)]) referencesBindings := by
    refine numbers_pure ?_
    rw [hcons, referencesBindings, List.append_nil]
  have hnext (value : Option Expr) : Numbers (referencesOption value)
      (do return (name, value) :: (← bindings fuel)) referencesBindings :=
    numbers_bind ih.bindings fun rest => numbers_pure (hcons value rest)
  refine numbers_accept ?_ fun _ => ?_
  · have hvalue : Numbers [] (pure none) referencesOption := numbers_pure rfl
    exact numbers_continue hvalue fun value => numbers_accept (hlast value) fun _ => hnext value
  · have hvalue : Numbers [] (do return some (← expression fuel)) referencesOption :=
      numbers_map ih.expression fun _ => rfl
    exact numbers_continue hvalue fun value => numbers_accept (hlast value) fun _ => hnext value

theorem numbers_statementBehind {t : Token} {p : Production Stmt}
    (h : statementBehind fuel t = some p) : Numbers [] p Stmt.references := by
  unfold statementBehind at h
  split at h <;> cases h
  · exact ih.forStatement
  · exact ih.ifStatement
  · exact ih.whileStatement
  · exact ih.returnStatement t
  · exact numbers_jumpStatement (by rw [Stmt.references])
  · exact numbers_jumpStatement (by rw [Stmt.references])
  · exact ih.blockStatement
  · exact ih.printStatement

theorem numbers_statement : Numbers [] (statement (fuel + 1)) Stmt.references := by
  rw [statement_eq_look]
  exact numbers_look (fun _ _ h => numbers_statementBehind ih h) ih.expressionStatement

theorem numbers_loopBody : Numbers [] (loopBody (fuel + 1)) Stmt.references := by
  rw [loopBody]
  exact numbers_withLoops _ _ ih.statement

theorem numbers_forStart :
    Numbers [] (forStart (fuel + 1)) fun s => s.elim [] Stmt.references := by
  rw [forStart]
  refine numbers_accept ?_ fun _ => numbers_pure rfl
  exact numbers_accept (numbers_map ih.expressionStatement fun _ => rfl) fun _ =>
    numbers_map ih.varDeclaration fun _ => rfl

theorem numbers_optionalExpression (closing : Symbol) :
    Numbers [] (optionalExpression (fuel + 1) closing) referencesOption := by
  rw [optionalExpression]
  exact numbers_if (steady_check _) (numbers_pure rfl) (numbers_map ih.expression fun _ => rfl)

theorem numbers_forStatement : Numbers [] (forStatement (fuel + 1)) Stmt.references := by
  rw [forStatement]
  refine numbers_skip (steady_expect _ _) fun _ => numbers_bind ih.forStart fun first => ?_
  refine numbers_bind (ih.optionalExpression _) fun condition => ?_
  refine numbers_skip (steady_expect _ _) fun _ => ?_
  refine numbers_bind (ih.optionalExpression _) fun increment => ?_
  refine numbers_skip (steady_expect _ _) fun _ => numbers_bind ih.loopBody fun body => ?_
  have hloop := references_forLoop first condition increment body
  cases first with
  | none => exact numbers_pure (hloop.trans (by simp))
  | some s => exact numbers_pure (hloop.trans (by simp))

theorem numbers_ifStatement : Numbers [] (ifStatement (fuel + 1)) Stmt.references := by
  rw [ifStatement]
  refine numbers_skip (steady_expect _ _) fun _ => numbers_bind ih.expression fun condition => ?_
  refine numbers_skip (steady_expect _ _) fun _ => numbers_bind ih.statement fun whenTrue => ?_
  refine numbers_accept (numbers_pure (by rw [Stmt.references]; rfl)) fun _ => ?_
  exact numbers_bind ih.statement fun whenFalse => numbers_pure (by simp [Stmt.references])

theorem numbers_whileStatement : Numbers [] (whileStatement (fuel + 1)) Stmt.references := by
  rw [whileStatement]
  refine numbers_skip (steady_expect _ _) fun _ => numbers_bind ih.expression fun condition => ?_
  refine numbers_skip (steady_expect _ _) fun _ => numbers_bind ih.loopBody fun body => ?_
  exact numbers_pure (by simp [Stmt.references])

theorem numbers_returnStatement (keyword : Token) :
    Numbers [] (returnStatement (fuel + 1) keyword) Stmt.references := by
  rw [returnStatement]
  refine numbers_bind (ih.optionalExpression _) fun value => numbers_skip (steady_expect _ _) fun _ => ?_
  exact numbers_pure (references_returning keyword value)

theorem numbers_blockStatement : Numbers [] (blockStatement (fuel + 1)) Stmt.references := by
  rw [blockStatement]
  exact numbers_map ih.block fun _ => by rw [Stmt.references]

theorem numbers_printStatement : Numbers [] (printStatement (fuel + 1)) Stmt.references := by
  rw [printStatement]
  refine numbers_bind ih.expression fun value => numbers_skip (steady_expect _ _) fun _ => ?_
  exact numbers_pure (by rw [Stmt.references]; rfl)

theorem numbers_expressionStatement : Numbers [] (expressionStatement (fuel + 1)) Stmt.references := by
  rw [expressionStatement]
  refine numbers_bind ih.expression fun value => numbers_skip (steady_expect _ _) fun _ => ?_
  exact numbers_pure (by rw [Stmt.references]; rfl)

end

/-- Every production numbers its trees in order, with any amount of fuel. -/
theorem allNumbered (fuel : Nat) : AllNumbered fuel := by
  induction fuel with
  | zero => exact allNumbered_zero
  | succ fuel ih =>
    exact ⟨numbers_expression ih, numbers_ternary ih, numbers_binary ih, numbers_binaryRest ih,
      numbers_unary ih, numbers_callRest ih, numbers_arguments ih, numbers_argumentList ih,
      numbers_primary ih, numbers_functionTail ih, numbers_function ih, numbers_block ih,
      numbers_declarations ih, numbers_declaration ih, numbers_methods ih, numbers_varDeclaration ih,
      numbers_bindings ih, numbers_statement ih, numbers_loopBody ih, numbers_forStart ih,
      numbers_optionalExpression ih, numbers_forStatement ih, numbers_ifStatement ih,
      numbers_whileStatement ih, numbers_returnStatement ih, numbers_blockStatement ih,
      numbers_printStatement ih, numbers_expressionStatement ih⟩

end Production

/-! ### The trees of a list of tokens -/

/-- The tree of the next declaration, if it is read to its end; perhaps with faults inside of it. -/
def Cursor.tree? (c : Cursor) : Option Stmt :=
  match Production.declaration c.fuel c with
  | .done s _ => some s
  | .failed _ _ => none

/-- The trees of the declarations from the cursor on, at most `fuel` of them, also of those that are
refused for faults inside of them. -/
def Cursor.trees : (fuel : Nat) → Cursor → List Stmt
  | 0, _ => []
  | fuel + 1, c =>
    match c.next? with
    | none => []
    | some (_, c') => c.tree?.toList ++ trees fuel c'

variable {c c' : Cursor} {item : Except Rejection Stmt}

theorem Cursor.between_tree (h : c.next? = some (item, c')) :
    Between c.nextReference (referencesStmts c.tree?.toList) c'.nextReference := by
  obtain ⟨-, ⟨s, c₁, hdone, rfl, -⟩ | ⟨fault, c₁, r, hfailed, rfl, -⟩⟩ := Cursor.next?_cases h
  · have hnumbers := (Production.allNumbered c.fuel).declaration c c.nextReference s c₁
      (.none (Nat.le_refl _)) hdone
    rw [Cursor.tree?, hdone]
    simpa [referencesStmts] using hnumbers
  · have hfollows := (Production.allSteady c.fuel).declaration c
    rw [hfailed] at hfollows
    rw [Cursor.tree?, hfailed]
    exact .none hfollows.reference

/-- No two nodes of the trees carry the same reference. -/
theorem Cursor.between_trees (fuel : Nat) (c : Cursor) :
    Between c.nextReference (referencesStmts (c.trees fuel)) (c.items fuel).2.nextReference := by
  induction fuel generalizing c with
  | zero => exact .none (Nat.le_refl _)
  | succ fuel ih =>
    rw [Cursor.trees, Cursor.items]
    cases hnext : c.next? with
    | none => exact .none (Nat.le_refl _)
    | some next =>
      obtain ⟨item, c'⟩ := next
      dsimp only
      rw [referencesStmts_append]
      exact (Cursor.between_tree hnext).append (ih c')

/-- Where nothing is refused, the trees are the program. -/
theorem Cursor.trees_of_collect {program : List Stmt} {fuel : Nat}
    (h : collect (c.items fuel).1 = .ok program) : c.trees fuel = program := by
  induction fuel generalizing c program with
  | zero =>
    cases h
    rfl
  | succ fuel ih =>
    rw [Cursor.items] at h
    rw [Cursor.trees]
    cases hnext : c.next? with
    | none =>
      rw [hnext] at h
      cases h
      rfl
    | some next =>
      obtain ⟨item, c'⟩ := next
      rw [hnext] at h
      obtain ⟨s, rest, rfl, hrest, rfl⟩ := collect_cons_ok h
      dsimp only
      rw [ih hrest]
      obtain ⟨-, ⟨_, c₁, hdone, -, ⟨-, ⟨⟩⟩ | ⟨_, -, ⟨⟩⟩⟩ | ⟨_, _, _, -, -, -, ⟨⟩⟩⟩ := Cursor.next?_cases hnext
      rw [Cursor.tree?, hdone]
      rfl

end TreeWalk
