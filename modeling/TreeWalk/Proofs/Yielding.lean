import TreeWalk.Proofs.Recovery
import TreeWalk.Proofs.Steady

/-!
# What productions answer with

A production that reads tokens with a property answers with what can be built from such tokens, and
leaves such tokens behind (`Production.Yields`). This holds of every answer, also where faults inside
were recovered from, so that tokens have been left out: unlike a derivation, it says nothing about which
tokens were read. `allYield` says so of the productions that read faithful tokens: their trees are
recoverable.

What stands before an `=` becomes the target of an assignment or of a field, so of a name and of a
property more is known than that they are recoverable (`Expr.Regular`).
-/

namespace TreeWalk

/-- The answer is good and the tokens that are left have the property. -/
def Reply.Meets {α : Type} (P : Token → Prop) (good : α → Prop) : Reply α → Prop
  | .done a c => good a ∧ ∀ t ∈ c.rest, P t
  | .failed _ c => ∀ t ∈ c.rest, P t

namespace Production

variable {α β : Type} {P : Token → Prop}

/-- Where all tokens have the property, what is read is good. -/
def Yields (P : Token → Prop) (p : Production α) (good : α → Prop) : Prop :=
  ∀ c : Cursor, (∀ t ∈ c.rest, P t) → (p c).Meets P good

/-! ### The parts -/

section

variable {good : α → Prop} {good' : β → Prop} {p : Production α} {f : α → Production β}

theorem Yields.mono {better : α → Prop} (hp : Yields P p better) (h : ∀ a, better a → good a) :
    Yields P p good := by
  intro c hc
  have hmeets := hp c hc
  revert hmeets
  cases p c with
  | done a c' => exact fun hmeets => ⟨h a hmeets.1, hmeets.2⟩
  | failed fault c' => exact id

theorem yields_pure {a : α} (h : good a) : Yields P (pure a) good :=
  fun _ hc => ⟨h, hc⟩

theorem yields_none : Yields P (pure none) fun o => ∀ a ∈ o, good a :=
  yields_pure nofun

theorem yields_nil : Yields P (pure []) fun as => ∀ a ∈ as, good a :=
  yields_pure nofun

theorem yields_bind (hp : Yields P p good) (hf : ∀ a, good a → Yields P (f a) good') :
    Yields P (p >>= f) good' := by
  intro c hc
  have hmeets := hp c hc
  show (Production.bind p f c).Meets P good'
  unfold Production.bind
  split
  · next a c' heq =>
    rw [heq] at hmeets
    exact hf a hmeets.1 c' hmeets.2
  · next fault c' heq =>
    rw [heq] at hmeets
    exact hmeets

theorem yields_some (hp : Yields P p good) :
    Yields P (do return some (← p)) fun o => ∀ a ∈ o, good a := by
  refine yields_bind hp fun a ha => yields_pure ?_
  rintro _ ⟨⟩
  exact ha

theorem yields_fail (cause : SyntaxCause) : Yields P (fail cause) good :=
  fun _ hc => hc

theorem yields_failAt (t : Token) (cause : SyntaxCause) : Yields P (failAt t cause) good :=
  fun _ hc => hc

theorem yields_check (q : Token → Bool) : Yields P (check q) fun _ => True :=
  fun _ hc => ⟨trivial, hc⟩

theorem yields_endsBlock : Yields P endsBlock fun _ => True :=
  fun _ hc => ⟨trivial, hc⟩

theorem yields_startsFunction : Yields P startsFunction fun _ => True :=
  fun _ hc => ⟨trivial, hc⟩

theorem yields_freshReference : Yields P freshReference fun _ => True :=
  fun _ hc => ⟨trivial, hc⟩

theorem yields_expect (q : Token → Bool) (what : Expected) :
    Yields P (expect q what) fun t => P t ∧ q t := by
  intro c hc
  unfold expect
  split
  · next t rest hrest =>
    have hall := hc
    rw [hrest] at hall
    obtain ⟨ht, hmore⟩ := List.forall_mem_cons.1 hall
    split
    · next hq => exact ⟨⟨ht, hq⟩, hmore⟩
    · exact hc
  · exact hc

theorem yields_symbol (s : Symbol) (what : Expected) :
    Yields P (symbol s what) fun t => P t ∧ t.isSymbol s :=
  yields_expect _ _

theorem yields_identifier (what : Expected) : Yields P (identifier what) (Token.Names P) :=
  yields_expect _ _

/-- A choice on the next token. -/
theorem yields_accept {q : Token → Bool} {f : Option Token → Production β}
    (hnone : Yields P (f none) good') (hsome : ∀ t, P t → q t → Yields P (f (some t)) good') :
    Yields P (accept? q >>= f) good' := by
  have haccept : Yields P (accept? q) fun o => ∀ t ∈ o, P t ∧ q t := by
    intro c hc
    unfold accept?
    split
    · next t rest hrest =>
      have hall := hc
      rw [hrest] at hall
      obtain ⟨ht, hmore⟩ := List.forall_mem_cons.1 hall
      split
      · next hq =>
        refine ⟨?_, hmore⟩
        rintro _ ⟨⟩
        exact ⟨ht, hq⟩
      · exact ⟨nofun, hc⟩
    · exact ⟨nofun, hc⟩
  refine yields_bind haccept fun o ho => ?_
  cases o with
  | none => exact hnone
  | some t => exact hsome t (ho t rfl).1 (ho t rfl).2

/-- A choice on whether something stands here. -/
theorem yields_if {p : Production Bool} {q q' : Production β} (hp : Yields P p fun _ => True)
    (hq : Yields P q good') (hq' : Yields P q' good') : Yields P (do if ← p then q else q') good' := by
  refine yields_bind hp fun b _ => ?_
  cases b with
  | true => exact hq
  | false => exact hq'

theorem yields_look {next : Token → Option (Production α)} {other : Production α}
    (hnext : ∀ t p, P t → next t = some p → Yields P p good) (hother : Yields P other good) :
    Yields P (look next other) good := by
  intro c hc
  unfold look
  split
  · exact hother c hc
  · next t rest hrest =>
    split
    · next p hp =>
      rw [hrest] at hc
      obtain ⟨ht, hmore⟩ := List.forall_mem_cons.1 hc
      exact hnext t p ht hp _ hmore
    · exact hother c hc

theorem yields_withLoops (enter : Nat → Nat) (leave : Nat → Nat → Nat) (hp : Yields P p good) :
    Yields P (withLoops enter leave p) good := by
  intro c hc
  have hmeets := hp { c with loops := enter c.loops } hc
  unfold withLoops
  split
  · next heq =>
    rw [heq] at hmeets
    exact hmeets
  · next heq =>
    rw [heq] at hmeets
    exact hmeets

theorem yields_recovering (hp : Yields P p good) :
    Yields P (recovering p) fun o => ∀ a ∈ o, good a := by
  intro c hc
  have hmeets := hp c hc
  unfold recovering
  split
  · next a c' heq =>
    rw [heq] at hmeets
    refine ⟨?_, hmeets.2⟩
    rintro _ ⟨⟩
    exact hmeets.1
  · next fault c' heq =>
    rw [heq] at hmeets
    exact ⟨nofun, fun t ht => hmeets t ((resume_suffix c'.rest).subset ht)⟩

end

theorem yields_parameters (allowed : Nat) :
    Yields P (parameters allowed) fun names => ∀ x ∈ names, x.Names P := by
  induction allowed with
  | zero => exact yields_fail _
  | succ allowed ih =>
    rw [parameters]
    refine yields_bind (yields_identifier _) fun name hname => ?_
    refine yields_accept (yields_pure (by simpa using hname)) fun _ _ _ => ?_
    exact yields_bind ih fun names hnames =>
      yields_pure (List.forall_mem_cons.2 ⟨hname, hnames⟩)

end Production

/-! ### Trees of faithful tokens -/

/-- The expression is recoverable, and if it is a name or a property, it can become a target. -/
structure Expr.Regular (e : Expr) : Prop where
  recoverable : (Phrase.expr e).Recoverable
  name : ∀ reference name, e = .variable reference name → name.Names Token.Faithful
  property : ∀ object name, e = .get object name →
    name.Names Token.Faithful ∧ (Phrase.expr object).Recoverable

open Phrase

/-- Other expressions do not become targets. -/
theorem Expr.Regular.of_not_target {e : Expr} (h : (expr e).Recoverable) (he : e.isTarget = false) :
    e.Regular := by
  refine ⟨h, ?_, ?_⟩
  · rintro _ _ rfl
    cases he
  · rintro _ _ rfl
    cases he

theorem regular_level {level : Level} {left right : Expr} {t : Token} (ht : t.Faithful)
    (hoperator : level.hasOperator t) (hleft : left.Regular) (hright : right.Regular) :
    (level.node left t right).Regular :=
  .of_not_target (recoverable_level ht hoperator hleft.recoverable hright.recoverable)
    (Derives.isTarget_node level left right t)

theorem regular_get {e : Expr} {name : Token} (hname : name.Names Token.Faithful) (h : e.Regular) :
    (Expr.get e name).Regular := by
  refine ⟨recoverable_get hname h.recoverable, nofun, ?_⟩
  rintro _ _ ⟨⟩
  exact ⟨hname, h.recoverable⟩

theorem regular_variable {name : Token} (hname : name.Names Token.Faithful) (reference : Nat) :
    (Expr.variable reference name).Regular := by
  refine ⟨recoverable_variable reference hname, ?_, nofun⟩
  rintro _ _ ⟨⟩
  exact hname

namespace Production

/-- What the productions that count down fuel answer with. -/
structure AllYield (fuel : Nat) : Prop where
  expression : Yields Token.Faithful (expression fuel) Expr.Regular
  ternary : Yields Token.Faithful (ternary fuel) Expr.Regular
  binary : ∀ levels, Yields Token.Faithful (binary fuel levels) Expr.Regular
  binaryRest : ∀ level tighter left, left.Regular →
    Yields Token.Faithful (binaryRest fuel level tighter left) Expr.Regular
  unary : Yields Token.Faithful (unary fuel) Expr.Regular
  callRest : ∀ callee, callee.Regular →
    Yields Token.Faithful (callRest fuel callee) Expr.Regular
  arguments : ∀ closing what, Yields Token.Faithful (arguments fuel closing what) fun a =>
    (∀ e ∈ a.1, (expr e).Recoverable) ∧ a.2.Faithful ∧ a.2.isSymbol closing
  argumentList : ∀ allowed, Yields Token.Faithful (argumentList fuel allowed) fun es =>
    ∀ e ∈ es, (expr e).Recoverable
  primary : Yields Token.Faithful (primary fuel) Expr.Regular
  functionTail : ∀ kind name keyword,
    Yields Token.Faithful (functionTail fuel kind name keyword) fun decl =>
      decl.name = name ∧ decl.keyword = keyword ∧ RecoverableParts decl
  function : ∀ kind, Yields Token.Faithful (function fuel kind) fun decl => ∃ name,
    name.Names Token.Faithful ∧ decl.name = some name ∧ decl.keyword = name ∧ RecoverableParts decl
  block : Yields Token.Faithful (block fuel) fun ss => ∀ s ∈ ss, (stmt s).Recoverable
  declarations : Yields Token.Faithful (declarations fuel) fun ss => ∀ s ∈ ss, (stmt s).Recoverable
  declaration : Yields Token.Faithful (declaration fuel) fun s => (stmt s).Recoverable
  methods : Yields Token.Faithful (methods fuel) fun fs => ∀ f ∈ fs, (method f).Recoverable
  varDeclaration : Yields Token.Faithful (varDeclaration fuel) fun s => (stmt s).Recoverable
  bindings : Yields Token.Faithful (bindings fuel) fun bs =>
    ∀ b ∈ bs, b.1.Names Token.Faithful ∧ ∀ e ∈ b.2, (expr e).Recoverable
  statement : Yields Token.Faithful (statement fuel) fun s => (stmt s).Recoverable
  loopBody : Yields Token.Faithful (loopBody fuel) fun s => (stmt s).Recoverable
  forStart : Yields Token.Faithful (forStart fuel) fun o => ∀ s ∈ o, (stmt s).Recoverable
  optionalExpression : ∀ closing, Yields Token.Faithful (optionalExpression fuel closing) fun o =>
    ∀ e ∈ o, (expr e).Recoverable
  forStatement : Yields Token.Faithful (forStatement fuel) fun s => (stmt s).Recoverable
  ifStatement : Yields Token.Faithful (ifStatement fuel) fun s => (stmt s).Recoverable
  whileStatement : Yields Token.Faithful (whileStatement fuel) fun s => (stmt s).Recoverable
  returnStatement : ∀ keyword, keyword.Faithful → keyword.isKeyword .return_ →
    Yields Token.Faithful (returnStatement fuel keyword) fun s => (stmt s).Recoverable
  blockStatement : Yields Token.Faithful (blockStatement fuel) fun s => (stmt s).Recoverable
  printStatement : Yields Token.Faithful (printStatement fuel) fun s => (stmt s).Recoverable
  expressionStatement : Yields Token.Faithful (expressionStatement fuel) fun s =>
    (stmt s).Recoverable

theorem yields_jumpStatement {outside : SyntaxCause} {what : Expected} {node : Token → Stmt}
    {keyword : Token} (h : (stmt (node keyword)).Recoverable) :
    Yields Token.Faithful (jumpStatement outside what node keyword) fun s => (stmt s).Recoverable := by
  have hjump : Yields Token.Faithful (do
      let _ ← symbol .semicolon what
      return node keyword) fun s => (stmt s).Recoverable :=
    yields_bind (yields_symbol _ _) fun _ _ => yields_pure h
  intro c hc
  unfold jumpStatement
  split
  · exact hc
  · exact hjump c hc

theorem allYield_zero : AllYield 0 := by
  constructor <;> intros <;> exact yields_fail _

section

variable {fuel : Nat} (ih : AllYield fuel)

include ih

/-! #### Expressions -/

theorem yields_expression : Yields Token.Faithful (expression (fuel + 1)) Expr.Regular := by
  rw [expression]
  refine yields_bind ih.ternary fun target htarget => ?_
  refine yields_accept (yields_pure htarget) fun equals _ _ => ?_
  refine yields_bind ih.expression fun value hvalue => ?_
  cases target with
  | «variable» reference name =>
    refine yields_bind yields_freshReference fun reference' _ => yields_pure ?_
    exact .of_not_target (recoverable_assign reference' (htarget.name _ _ rfl) hvalue.recoverable) rfl
  | get object name =>
    obtain ⟨hname, hobject⟩ := htarget.property _ _ rfl
    exact yields_pure (.of_not_target (recoverable_set hname hobject hvalue.recoverable) rfl)
  | _ => exact yields_failAt _ _

theorem yields_ternary : Yields Token.Faithful (ternary (fuel + 1)) Expr.Regular := by
  rw [ternary]
  refine yields_bind (ih.binary _) fun condition hcondition => ?_
  refine yields_accept (yields_pure hcondition) fun _ _ _ => ?_
  refine yields_bind ih.ternary fun whenTrue htrue => ?_
  refine yields_bind (yields_symbol _ _) fun _ _ => yields_bind ih.ternary fun whenFalse hfalse => ?_
  have hternary :=
    recoverable_ternary hcondition.recoverable htrue.recoverable hfalse.recoverable
  exact yields_pure (.of_not_target hternary rfl)

theorem yields_binary (levels : List Level) :
    Yields Token.Faithful (binary (fuel + 1) levels) Expr.Regular := by
  cases levels with
  | nil =>
    rw [binary]
    exact ih.unary
  | cons level tighter =>
    rw [binary]
    exact yields_bind (ih.binary tighter) fun left hleft => ih.binaryRest level tighter left hleft

theorem yields_binaryRest (level : Level) (tighter : List Level) (left : Expr) (hleft : left.Regular) :
    Yields Token.Faithful (binaryRest (fuel + 1) level tighter left) Expr.Regular := by
  rw [binaryRest]
  refine yields_accept (yields_pure hleft) fun operator ht hoperator => ?_
  refine yields_bind (ih.binary tighter) fun right hright => ?_
  exact ih.binaryRest level tighter _ (regular_level ht hoperator hleft hright)

theorem yields_unary : Yields Token.Faithful (unary (fuel + 1)) Expr.Regular := by
  rw [unary]
  refine yields_accept ?_ fun operator ht hoperator => ?_
  · refine yields_bind ih.primary fun operand hprimary => ?_
    refine yields_bind (ih.callRest _ hprimary) fun operand hoperand => ?_
    refine yields_accept (yields_pure hoperand) fun operator ht hoperator => yields_pure ?_
    exact .of_not_target (recoverable_after ht hoperator hoperand.recoverable) rfl
  · refine yields_bind ih.unary fun operand hoperand => yields_pure ?_
    exact .of_not_target (recoverable_before ht hoperator hoperand.recoverable) rfl

theorem yields_callRest (callee : Expr) (hcallee : callee.Regular) :
    Yields Token.Faithful (callRest (fuel + 1) callee) Expr.Regular := by
  rw [callRest]
  refine yields_accept ?_ fun _ _ _ => ?_
  · refine yields_accept ?_ fun bracket ht hbracket => ?_
    · refine yields_accept (yields_pure hcallee) fun _ _ _ => ?_
      exact yields_bind (yields_identifier _) fun name hname =>
        ih.callRest _ (regular_get hname hcallee)
    · refine yields_bind ih.expression fun position hposition => ?_
      refine yields_bind (yields_symbol _ _) fun _ _ => ih.callRest _ (.of_not_target ?_ rfl)
      exact recoverable_index ht hbracket hcallee.recoverable hposition.recoverable
  · refine yields_bind (ih.arguments _ _) fun read hread => ?_
    obtain ⟨hvalues, ht, hparen⟩ := hread
    refine ih.callRest _ (.of_not_target ?_ rfl)
    exact recoverable_call ht hparen hcallee.recoverable hvalues

theorem yields_arguments (closing : Symbol) (what : Expected) :
    Yields Token.Faithful (arguments (fuel + 1) closing what) fun a =>
      (∀ e ∈ a.1, (expr e).Recoverable) ∧ a.2.Faithful ∧ a.2.isSymbol closing := by
  rw [arguments]
  have hclose : ∀ values : List Expr, (∀ e ∈ values, (expr e).Recoverable) →
      Yields Token.Faithful (do
        let close ← symbol closing what
        return (values, close)) fun a =>
          (∀ e ∈ a.1, (expr e).Recoverable) ∧ a.2.Faithful ∧ a.2.isSymbol closing :=
    fun values hvalues => yields_bind (yields_symbol _ _) fun close hclose =>
      yields_pure ⟨hvalues, hclose⟩
  refine yields_bind (yields_check _) fun closes _ => ?_
  cases closes with
  | true => exact yields_bind yields_nil hclose
  | false => exact yields_bind (ih.argumentList _) hclose

theorem yields_argumentList (allowed : Nat) :
    Yields Token.Faithful (argumentList (fuel + 1) allowed) fun es =>
      ∀ e ∈ es, (expr e).Recoverable := by
  cases allowed with
  | zero =>
    rw [argumentList]
    exact yields_fail _
  | succ allowed =>
    rw [argumentList]
    refine yields_bind ih.expression fun value hvalue => ?_
    refine yields_accept (yields_pure ?_) fun _ _ _ => ?_
    · exact List.forall_mem_singleton.2 hvalue.recoverable
    · exact yields_bind (ih.argumentList allowed) fun values hvalues =>
        yields_pure (List.forall_mem_cons.2 ⟨hvalue.recoverable, hvalues⟩)

theorem yields_operandBehind {t : Token} {p : Production Expr} (ht : t.Faithful)
    (h : operandBehind fuel t = some p) : Yields Token.Faithful p Expr.Regular := by
  have hliteral : ∀ value : Literal, (∀ s, value = .string s → '"' ∉ s.toList) →
      Yields Token.Faithful (pure (.literal value)) Expr.Regular :=
    fun value hvalue => yields_pure (.of_not_target (recoverable_literal hvalue) rfl)
  unfold operandBehind at h
  split at h <;> cases h
  · exact hliteral _ nofun
  · exact hliteral _ nofun
  · exact hliteral _ nofun
  · next value _ =>
    refine hliteral _ fun s hs => ?_
    unfold numberLiteral at hs
    split at hs
    · cases hs
    · split at hs
      · cases hs
      · cases hs
  · next content hkind =>
    refine hliteral _ ?_
    rintro _ ⟨⟩
    exact ht.string content hkind
  · next hkind =>
    refine yields_bind yields_freshReference fun reference _ => yields_pure ?_
    exact .of_not_target (recoverable_this reference ht (Token.isKeyword_iff.2 hkind)) rfl
  · next hkind =>
    refine yields_bind yields_freshReference fun reference _ => yields_pure ?_
    exact regular_variable ⟨ht, Token.isIdentifier_iff.2 hkind⟩ reference
  · refine yields_bind ih.expression fun inner hinner => ?_
    exact yields_bind (yields_symbol _ _) fun _ _ =>
      yields_pure (.of_not_target (recoverable_group hinner.recoverable) rfl)
  · next hkind =>
    refine yields_bind (ih.arguments _ _) fun read hread => yields_pure ?_
    exact .of_not_target (recoverable_array ht (Token.isSymbol_iff.2 hkind) hread.1) rfl
  · next hkind =>
    refine yields_bind (yields_symbol _ _) fun _ _ => ?_
    refine yields_bind (ih.functionTail _ _ _) fun decl hdecl => yields_pure ?_
    obtain ⟨hname, hkeyword, hparts⟩ := hdecl
    have hfun : decl.keyword.isKeyword .fun_ := hkeyword ▸ Token.isKeyword_iff.2 hkind
    exact .of_not_target (recoverable_lambda hparts hname (hkeyword ▸ ht) hfun) rfl

theorem yields_primary : Yields Token.Faithful (primary (fuel + 1)) Expr.Regular := by
  rw [primary_eq_look]
  exact yields_look (fun t p ht h => yields_operandBehind ih ht h) (yields_fail _)

/-! #### Functions -/

theorem yields_functionTail (kind : FunctionKind) (name : Option Token) (keyword : Token) :
    Yields Token.Faithful (functionTail (fuel + 1) kind name keyword) fun decl =>
      decl.name = name ∧ decl.keyword = keyword ∧ RecoverableParts decl := by
  rw [functionTail]
  have hbody : ∀ names : List Token, (∀ x ∈ names, x.Names Token.Faithful) →
      Yields Token.Faithful (do
        let _ ← symbol .rightParen .closeParameters
        let _ ← symbol .leftBrace (.openFunctionBody kind)
        let body ← withLoops (fun _ => 0) (fun before _ => before) (block fuel)
        return (⟨name, names, body, keyword⟩ : FunctionDecl)) fun decl =>
          decl.name = name ∧ decl.keyword = keyword ∧ RecoverableParts decl := by
    intro names hnames
    refine yields_bind (yields_symbol _ _) fun _ _ => yields_bind (yields_symbol _ _) fun _ _ => ?_
    exact yields_bind (yields_withLoops _ _ ih.block) fun body hstmts =>
      yields_pure ⟨rfl, rfl, hnames, hstmts⟩
  refine yields_bind (yields_check _) fun closes _ => ?_
  cases closes with
  | true => exact yields_bind yields_nil hbody
  | false => exact yields_bind (yields_parameters _) hbody

theorem yields_function (kind : FunctionKind) :
    Yields Token.Faithful (function (fuel + 1) kind) fun decl => ∃ name,
      name.Names Token.Faithful ∧ decl.name = some name ∧ decl.keyword = name ∧
        RecoverableParts decl := by
  rw [function]
  refine yields_bind (yields_identifier _) fun name hname => ?_
  refine yields_bind (yields_symbol _ _) fun _ _ => ?_
  exact (ih.functionTail kind (some name) name).mono fun decl hdecl => ⟨name, hname, hdecl⟩

theorem yields_block :
    Yields Token.Faithful (block (fuel + 1)) fun ss => ∀ s ∈ ss, (stmt s).Recoverable := by
  rw [block]
  exact yields_bind ih.declarations fun body hbody =>
    yields_bind (yields_symbol _ _) fun _ _ => yields_pure hbody

theorem yields_declarations :
    Yields Token.Faithful (declarations (fuel + 1)) fun ss => ∀ s ∈ ss, (stmt s).Recoverable := by
  rw [declarations]
  refine yields_if yields_endsBlock yields_nil ?_
  refine yields_bind (yields_recovering ih.declaration) fun first hfirst => ?_
  cases first with
  | some s =>
    exact yields_bind ih.declarations fun ss hss =>
      yields_pure (List.forall_mem_cons.2 ⟨hfirst s rfl, hss⟩)
  | none => exact ih.declarations

/-! #### Declarations and statements -/

theorem yields_declaration :
    Yields Token.Faithful (declaration (fuel + 1)) fun s => (stmt s).Recoverable := by
  rw [declaration]
  have hfunction : Yields Token.Faithful (do return Stmt.function (← function fuel .function))
      fun s => (stmt s).Recoverable := by
    refine yields_bind (ih.function _) fun decl hdecl => yields_pure ?_
    obtain ⟨_, hn, hname, hkeyword, hparts⟩ := hdecl
    exact recoverable_function hparts hname hkeyword hn
  refine yields_accept ?_ fun _ _ _ => ?_
  · refine yields_if yields_startsFunction (yields_accept hfunction fun _ _ _ => hfunction) ?_
    exact yields_accept ih.statement fun _ _ _ => ih.varDeclaration
  · refine yields_bind (yields_identifier _) fun name hname => ?_
    refine yields_bind (yields_symbol _ _) fun _ _ => yields_bind ih.methods fun methods hmethods => ?_
    exact yields_bind (yields_symbol _ _) fun _ _ =>
      yields_pure (recoverable_classDecl hname hmethods)

theorem yields_methods :
    Yields Token.Faithful (methods (fuel + 1)) fun fs => ∀ f ∈ fs, (method f).Recoverable := by
  rw [methods]
  refine yields_if yields_endsBlock yields_nil ?_
  refine yields_bind (ih.function _) fun decl hdecl => ?_
  obtain ⟨_, hn, hname, hkeyword, hparts⟩ := hdecl
  exact yields_bind ih.methods fun fs hfs =>
    yields_pure (List.forall_mem_cons.2 ⟨recoverable_method hparts hname hkeyword hn, hfs⟩)

theorem yields_varDeclaration :
    Yields Token.Faithful (varDeclaration (fuel + 1)) fun s => (stmt s).Recoverable := by
  rw [varDeclaration]
  exact yields_bind ih.bindings fun bs hbs =>
    yields_bind (yields_symbol _ _) fun _ _ => yields_pure (recoverable_var hbs)

theorem yields_bindings : Yields Token.Faithful (bindings (fuel + 1)) fun bs =>
    ∀ b ∈ bs, b.1.Names Token.Faithful ∧ ∀ e ∈ b.2, (expr e).Recoverable := by
  rw [bindings]
  refine yields_bind (yields_identifier _) fun name hname => ?_
  have hlast : ∀ value : Option Expr, (∀ e ∈ value, (expr e).Recoverable) →
      Yields Token.Faithful (pure [(name, value)]) fun bs : List (Token × Option Expr) =>
        ∀ b ∈ bs, b.1.Names Token.Faithful ∧ ∀ e ∈ b.2, (expr e).Recoverable :=
    fun value hvalue => yields_pure (List.forall_mem_singleton.2 ⟨hname, hvalue⟩)
  have hnext : ∀ value : Option Expr, (∀ e ∈ value, (expr e).Recoverable) →
      Yields Token.Faithful (do return (name, value) :: (← bindings fuel)) fun bs =>
        ∀ b ∈ bs, b.1.Names Token.Faithful ∧ ∀ e ∈ b.2, (expr e).Recoverable :=
    fun value hvalue => yields_bind ih.bindings fun bs hbs =>
      yields_pure (List.forall_mem_cons.2 ⟨⟨hname, hvalue⟩, hbs⟩)
  refine yields_accept ?_ fun _ _ _ => ?_
  · refine yields_bind yields_none fun value (hvalue : ∀ e ∈ value, (expr e).Recoverable) => ?_
    exact yields_accept (hlast value hvalue) fun _ _ _ => hnext value hvalue
  · have hexpression : Yields Token.Faithful (expression fuel) fun e => (expr e).Recoverable :=
      ih.expression.mono fun _ => Expr.Regular.recoverable
    refine yields_bind (yields_some hexpression) fun value hvalue => ?_
    exact yields_accept (hlast value hvalue) fun _ _ _ => hnext value hvalue

theorem yields_statementBehind {t : Token} {p : Production Stmt} (ht : t.Faithful)
    (h : statementBehind fuel t = some p) :
    Yields Token.Faithful p fun s => (stmt s).Recoverable := by
  unfold statementBehind at h
  split at h <;> cases h
  · exact ih.forStatement
  · exact ih.ifStatement
  · exact ih.whileStatement
  · next hkind => exact ih.returnStatement t ht (Token.isKeyword_iff.2 hkind)
  · next hkind =>
    exact yields_jumpStatement (recoverable_jump (n := .breaking) _ (by decide) rfl rfl rfl
      ht (Token.isKeyword_iff.2 hkind))
  · next hkind =>
    exact yields_jumpStatement (recoverable_jump (n := .continuing) _ (by decide) rfl rfl rfl
      ht (Token.isKeyword_iff.2 hkind))
  · exact ih.blockStatement
  · exact ih.printStatement

theorem yields_statement :
    Yields Token.Faithful (statement (fuel + 1)) fun s => (stmt s).Recoverable := by
  rw [statement_eq_look]
  exact yields_look (fun t p ht h => yields_statementBehind ih ht h) ih.expressionStatement

theorem yields_loopBody :
    Yields Token.Faithful (loopBody (fuel + 1)) fun s => (stmt s).Recoverable := by
  rw [loopBody]
  exact yields_withLoops _ _ ih.statement

theorem yields_forStart :
    Yields Token.Faithful (forStart (fuel + 1)) fun o => ∀ s ∈ o, (stmt s).Recoverable := by
  rw [forStart]
  refine yields_accept ?_ fun _ _ _ => yields_none
  exact yields_accept (yields_some ih.expressionStatement) fun _ _ _ =>
    yields_some ih.varDeclaration

theorem yields_optionalExpression (closing : Symbol) :
    Yields Token.Faithful (optionalExpression (fuel + 1) closing) fun o =>
      ∀ e ∈ o, (expr e).Recoverable := by
  rw [optionalExpression]
  refine yields_if (yields_check _) yields_none ?_
  exact yields_some (ih.expression.mono fun _ => Expr.Regular.recoverable)

theorem yields_forStatement :
    Yields Token.Faithful (forStatement (fuel + 1)) fun s => (stmt s).Recoverable := by
  rw [forStatement]
  refine yields_bind (yields_symbol _ _) fun _ _ => yields_bind ih.forStart fun first hfirst => ?_
  refine yields_bind (ih.optionalExpression _) fun condition hcondition => ?_
  refine yields_bind (yields_symbol _ _) fun _ _ => ?_
  refine yields_bind (ih.optionalExpression _) fun increment hincrement => ?_
  refine yields_bind (yields_symbol _ _) fun _ _ => yields_bind ih.loopBody fun body hbody => ?_
  have hcondition' : (expr (condition.getD (.literal (.bool true)))).Recoverable := by
    cases condition with
    | none => exact recoverable_literal (by simp)
    | some e => exact hcondition e rfl
  have hloop := recoverable_loop hcondition' hbody hincrement
  cases first with
  | none => exact yields_pure hloop
  | some s => exact yields_pure (recoverable_block (by simpa using ⟨hfirst s rfl, hloop⟩))

theorem yields_ifStatement :
    Yields Token.Faithful (ifStatement (fuel + 1)) fun s => (stmt s).Recoverable := by
  rw [ifStatement]
  refine yields_bind (yields_symbol _ _) fun _ _ => ?_
  refine yields_bind ih.expression fun condition hcondition => ?_
  refine yields_bind (yields_symbol _ _) fun _ _ => yields_bind ih.statement fun whenTrue htrue => ?_
  refine yields_accept (yields_pure ?_) fun _ _ _ => ?_
  · exact recoverable_conditional hcondition.recoverable htrue (by simp)
  · refine yields_bind ih.statement fun whenFalse hfalse => yields_pure ?_
    refine recoverable_conditional hcondition.recoverable htrue ?_
    rintro _ ⟨⟩
    exact hfalse

theorem yields_whileStatement :
    Yields Token.Faithful (whileStatement (fuel + 1)) fun s => (stmt s).Recoverable := by
  rw [whileStatement]
  refine yields_bind (yields_symbol _ _) fun _ _ => ?_
  refine yields_bind ih.expression fun condition hcondition => ?_
  refine yields_bind (yields_symbol _ _) fun _ _ => yields_bind ih.loopBody fun body hbody => ?_
  exact yields_pure (recoverable_loop hcondition.recoverable hbody (by simp))

theorem yields_returnStatement (keyword : Token) (ht : keyword.Faithful)
    (hk : keyword.isKeyword .return_) :
    Yields Token.Faithful (returnStatement (fuel + 1) keyword) fun s => (stmt s).Recoverable := by
  rw [returnStatement]
  refine yields_bind (ih.optionalExpression _) fun value hvalue => ?_
  exact yields_bind (yields_symbol _ _) fun _ _ => yields_pure (recoverable_returning ht hk hvalue)

theorem yields_blockStatement :
    Yields Token.Faithful (blockStatement (fuel + 1)) fun s => (stmt s).Recoverable := by
  rw [blockStatement]
  exact yields_bind ih.block fun body hbody => yields_pure (recoverable_block hbody)

theorem yields_printStatement :
    Yields Token.Faithful (printStatement (fuel + 1)) fun s => (stmt s).Recoverable := by
  rw [printStatement]
  refine yields_bind ih.expression fun value hvalue => ?_
  exact yields_bind (yields_symbol _ _) fun _ _ =>
    yields_pure (recoverable_print hvalue.recoverable)

theorem yields_expressionStatement :
    Yields Token.Faithful (expressionStatement (fuel + 1)) fun s => (stmt s).Recoverable := by
  rw [expressionStatement]
  refine yields_bind ih.expression fun value hvalue => ?_
  exact yields_bind (yields_symbol _ _) fun _ _ =>
    yields_pure (recoverable_expression hvalue.recoverable)

end

/-- The productions that read faithful tokens answer with recoverable trees. -/
theorem allYield (fuel : Nat) : AllYield fuel := by
  induction fuel with
  | zero => exact allYield_zero
  | succ fuel ih =>
    exact ⟨yields_expression ih, yields_ternary ih, yields_binary ih, yields_binaryRest ih,
      yields_unary ih, yields_callRest ih, yields_arguments ih, yields_argumentList ih,
      yields_primary ih, yields_functionTail ih, yields_function ih, yields_block ih,
      yields_declarations ih, yields_declaration ih, yields_methods ih, yields_varDeclaration ih,
      yields_bindings ih, yields_statement ih, yields_loopBody ih, yields_forStart ih,
      yields_optionalExpression ih, yields_forStatement ih, yields_ifStatement ih,
      yields_whileStatement ih, yields_returnStatement ih, yields_blockStatement ih,
      yields_printStatement ih, yields_expressionStatement ih⟩

end Production

end TreeWalk
