import TreeWalk.Proofs.Program

/-!
# The tokens of a tree

A tree is spelled with tokens of a kind if every token in it is of the kind (`Stmt.Spelled`); besides,
what stands for a name is an identifier, and what stands for `this` is its keyword. A program that was
read is spelled with the tokens it was read from (`stmtsSpelled_of_parseProgram`), so whatever holds of
every token of a source holds of every token that a diagnostic can point at.
-/

namespace TreeWalk

/-- A name that has the property. -/
def Token.Names (P : Token → Prop) (t : Token) : Prop :=
  P t ∧ t.isIdentifier

/-! ### Trees -/

mutual

def Expr.Spelled (P : Token → Prop) : Expr → Prop
  | .literal _ => True
  | .group inner => inner.Spelled P
  | .unary operator operand _ => P operator ∧ operand.Spelled P
  | .binary left operator right => P operator ∧ left.Spelled P ∧ right.Spelled P
  | .logical left operator right => P operator ∧ left.Spelled P ∧ right.Spelled P
  | .ternary condition whenTrue whenFalse =>
    condition.Spelled P ∧ whenTrue.Spelled P ∧ whenFalse.Spelled P
  | .variable _ name => name.Names P
  | .assign _ name value => name.Names P ∧ value.Spelled P
  | .call callee paren arguments => P paren ∧ callee.Spelled P ∧ exprsSpelled P arguments
  | .array bracket elements => P bracket ∧ exprsSpelled P elements
  | .index collection bracket position => P bracket ∧ collection.Spelled P ∧ position.Spelled P
  | .get object name => name.Names P ∧ object.Spelled P
  | .set object name value => name.Names P ∧ object.Spelled P ∧ value.Spelled P
  | .this _ keyword => P keyword ∧ keyword.isKeyword .this_
  | .lambda function => function.Spelled P

def exprsSpelled (P : Token → Prop) : List Expr → Prop
  | [] => True
  | e :: rest => e.Spelled P ∧ exprsSpelled P rest

def FunctionDecl.Spelled (P : Token → Prop) : FunctionDecl → Prop
  | ⟨name, parameters, body, keyword⟩ =>
    (∀ x ∈ name, x.Names P) ∧ (∀ x ∈ parameters, x.Names P) ∧ stmtsSpelled P body ∧ P keyword

def Stmt.Spelled (P : Token → Prop) : Stmt → Prop
  | .block body => stmtsSpelled P body
  | .expression value => value.Spelled P
  | .print value => value.Spelled P
  | .var bindings => bindingsSpelled P bindings
  | .function decl => decl.Spelled P
  | .classDecl name methods => name.Names P ∧ methodsSpelled P methods
  | .conditional condition whenTrue none => condition.Spelled P ∧ whenTrue.Spelled P
  | .conditional condition whenTrue (some whenFalse) =>
    condition.Spelled P ∧ whenTrue.Spelled P ∧ whenFalse.Spelled P
  | .loop condition body none => condition.Spelled P ∧ body.Spelled P
  | .loop condition body (some increment) =>
    condition.Spelled P ∧ body.Spelled P ∧ increment.Spelled P
  | .returning keyword none => P keyword
  | .returning keyword (some value) => P keyword ∧ value.Spelled P
  | .breaking keyword => P keyword
  | .continuing keyword => P keyword

def stmtsSpelled (P : Token → Prop) : List Stmt → Prop
  | [] => True
  | s :: rest => s.Spelled P ∧ stmtsSpelled P rest

def bindingsSpelled (P : Token → Prop) : List (Token × Option Expr) → Prop
  | [] => True
  | (name, none) :: rest => name.Names P ∧ bindingsSpelled P rest
  | (name, some value) :: rest => name.Names P ∧ value.Spelled P ∧ bindingsSpelled P rest

def methodsSpelled (P : Token → Prop) : List FunctionDecl → Prop
  | [] => True
  | f :: rest => f.Spelled P ∧ methodsSpelled P rest

end

section

variable {P : Token → Prop}

theorem exprsSpelled_iff {es : List Expr} : exprsSpelled P es ↔ ∀ e ∈ es, e.Spelled P := by
  induction es with
  | nil => simp [exprsSpelled]
  | cons e es ih => rw [exprsSpelled, ih, List.forall_mem_cons]

theorem methodsSpelled_iff {decls : List FunctionDecl} :
    methodsSpelled P decls ↔ ∀ decl ∈ decls, decl.Spelled P := by
  induction decls with
  | nil => simp [methodsSpelled]
  | cons decl decls ih => rw [methodsSpelled, ih, List.forall_mem_cons]

theorem bindingsSpelled_iff {bs : List (Token × Option Expr)} :
    bindingsSpelled P bs ↔ ∀ b ∈ bs, b.1.Names P ∧ ∀ e ∈ b.2, e.Spelled P := by
  induction bs with
  | nil => simp [bindingsSpelled]
  | cons b bs ih =>
    rw [List.forall_mem_cons, ← ih]
    obtain ⟨name, _ | value⟩ := b
    · simp [bindingsSpelled]
    · simp [bindingsSpelled, and_assoc]

theorem FunctionDecl.spelled_iff {decl : FunctionDecl} : decl.Spelled P ↔
    (∀ x ∈ decl.name, x.Names P) ∧ (∀ x ∈ decl.parameters, x.Names P) ∧
      stmtsSpelled P decl.body ∧ P decl.keyword := by
  obtain ⟨name, parameters, body, keyword⟩ := decl
  rw [FunctionDecl.Spelled]

/-! ### References do not matter -/

mutual

theorem Expr.spelled_erase (e : Expr) : e.erase.Spelled P ↔ e.Spelled P := by
  cases e with
  | literal | «variable» | this => simp only [Expr.erase, Expr.Spelled]
  | group e | unary _ e _ | get e _ | assign _ _ e =>
    simp only [Expr.erase, Expr.Spelled, e.spelled_erase]
  | binary left _ right | logical left _ right | index left _ right | set left _ right =>
    simp only [Expr.erase, Expr.Spelled, left.spelled_erase, right.spelled_erase]
  | ternary condition whenTrue whenFalse =>
    simp only [Expr.erase, Expr.Spelled, condition.spelled_erase, whenTrue.spelled_erase,
      whenFalse.spelled_erase]
  | call callee _ arguments =>
    simp only [Expr.erase, Expr.Spelled, callee.spelled_erase, exprsSpelled_erase arguments]
  | array _ elements => simp only [Expr.erase, Expr.Spelled, exprsSpelled_erase elements]
  | lambda function => simp only [Expr.erase, Expr.Spelled, function.spelled_erase]

theorem exprsSpelled_erase (es : List Expr) : exprsSpelled P (eraseExprs es) ↔ exprsSpelled P es := by
  cases es with
  | nil => simp only [eraseExprs]
  | cons e es => simp only [eraseExprs, exprsSpelled, e.spelled_erase, exprsSpelled_erase es]

theorem FunctionDecl.spelled_erase (decl : FunctionDecl) :
    decl.erase.Spelled P ↔ decl.Spelled P := by
  obtain ⟨name, parameters, body, keyword⟩ := decl
  simp only [FunctionDecl.erase, FunctionDecl.Spelled, stmtsSpelled_erase body]

theorem Stmt.spelled_erase (s : Stmt) : s.erase.Spelled P ↔ s.Spelled P := by
  cases s with
  | block body => simp only [Stmt.erase, Stmt.Spelled, stmtsSpelled_erase body]
  | expression value | print value => simp only [Stmt.erase, Stmt.Spelled, value.spelled_erase]
  | var bindings => simp only [Stmt.erase, Stmt.Spelled, bindingsSpelled_erase bindings]
  | function decl => simp only [Stmt.erase, Stmt.Spelled, decl.spelled_erase]
  | classDecl _ methods => simp only [Stmt.erase, Stmt.Spelled, methodsSpelled_erase methods]
  | conditional condition whenTrue whenFalse =>
    cases whenFalse with
    | none =>
      simp only [Stmt.erase, Stmt.Spelled, condition.spelled_erase, whenTrue.spelled_erase]
    | some whenFalse =>
      simp only [Stmt.erase, Stmt.Spelled, condition.spelled_erase, whenTrue.spelled_erase,
        whenFalse.spelled_erase]
  | loop condition body increment =>
    cases increment with
    | none => simp only [Stmt.erase, Stmt.Spelled, condition.spelled_erase, body.spelled_erase]
    | some increment =>
      simp only [Stmt.erase, Stmt.Spelled, condition.spelled_erase, body.spelled_erase,
        increment.spelled_erase]
  | returning _ value =>
    cases value with
    | none => simp only [Stmt.erase]
    | some value => simp only [Stmt.erase, Stmt.Spelled, value.spelled_erase]
  | breaking | continuing => simp only [Stmt.erase]

theorem stmtsSpelled_erase (ss : List Stmt) : stmtsSpelled P (eraseStmts ss) ↔ stmtsSpelled P ss := by
  cases ss with
  | nil => simp only [eraseStmts]
  | cons s ss => simp only [eraseStmts, stmtsSpelled, s.spelled_erase, stmtsSpelled_erase ss]

theorem bindingsSpelled_erase (bs : List (Token × Option Expr)) :
    bindingsSpelled P (eraseBindings bs) ↔ bindingsSpelled P bs := by
  cases bs with
  | nil => simp only [eraseBindings]
  | cons b bs =>
    obtain ⟨name, _ | value⟩ := b
    · simp only [eraseBindings, bindingsSpelled, bindingsSpelled_erase bs]
    · simp only [eraseBindings, bindingsSpelled, value.spelled_erase, bindingsSpelled_erase bs]

theorem methodsSpelled_erase (decls : List FunctionDecl) :
    methodsSpelled P (eraseMethods decls) ↔ methodsSpelled P decls := by
  cases decls with
  | nil => simp only [eraseMethods]
  | cons decl decls =>
    simp only [eraseMethods, methodsSpelled, decl.spelled_erase, methodsSpelled_erase decls]

end

/-! ### Phrases -/

def Suffix.Spelled (P : Token → Prop) : Suffix → Prop
  | .call paren arguments => P paren ∧ exprsSpelled P arguments
  | .index bracket position => P bracket ∧ position.Spelled P
  | .get name => name.Names P

/-- What the tree of a rule is when it is spelled with such tokens. -/
def Rule.Spelled (P : Token → Prop) : (rule : Rule) → rule.Tree → Prop
  | .expression, e | .ternary, e | .binary _, e | .unary, e | .call, e | .primary, e => e.Spelled P
  | .operands _ _, more => ∀ o ∈ more, P o.1 ∧ o.2.Spelled P
  | .suffixes, more => ∀ suffix ∈ more, suffix.Spelled P
  | .arguments _, t => exprsSpelled P t.1 ∧ P t.2
  | .argumentList _, es => exprsSpelled P es
  | .parameters _, names => ∀ x ∈ names, x.Names P
  | .functionTail, t => (∀ x ∈ t.1, x.Names P) ∧ stmtsSpelled P t.2
  | .function, decl => decl.Spelled P
  | .block, ss | .declarations, ss => stmtsSpelled P ss
  | .declaration _, s | .varTail, s | .statement _, s => s.Spelled P
  | .methods, decls => methodsSpelled P decls
  | .bindings, bs => bindingsSpelled P bs
  | .forStart, s => ∀ first ∈ s, first.Spelled P
  | .optional _, o => ∀ e ∈ o, e.Spelled P

theorem spelled_operands {level : Level} {more : List (Token × Expr)} {e : Expr}
    (he : e.Spelled P) (hm : ∀ o ∈ more, P o.1 ∧ o.2.Spelled P) :
    (more.foldl level.attach e).Spelled P := by
  induction more generalizing e with
  | nil => exact he
  | cons o more ih =>
    obtain ⟨⟨hoperator, hright⟩, hmore⟩ := List.forall_mem_cons.1 hm
    refine ih ?_ hmore
    cases level <;> exact ⟨hoperator, he, hright⟩

theorem spelled_suffixes {more : List Suffix} {e : Expr} (he : e.Spelled P)
    (hm : ∀ suffix ∈ more, suffix.Spelled P) : (more.foldl Suffix.attach e).Spelled P := by
  induction more generalizing e with
  | nil => exact he
  | cons suffix more ih =>
    obtain ⟨hs, hmore⟩ := List.forall_mem_cons.1 hm
    refine ih ?_ hmore
    cases suffix with
    | call paren arguments => exact ⟨hs.1, he, hs.2⟩
    | index bracket position => exact ⟨hs.1, he, hs.2⟩
    | get name => exact ⟨hs, he⟩

theorem spelled_forLoop {first : Option Stmt} {condition increment : Option Expr} {body : Stmt}
    (hf : ∀ s ∈ first, s.Spelled P) (hc : ∀ e ∈ condition, e.Spelled P)
    (hi : ∀ e ∈ increment, e.Spelled P) (hb : body.Spelled P) :
    (forLoop first condition increment body).Spelled P := by
  have hcondition : (condition.getD (.literal (.bool true))).Spelled P := by
    cases condition with
    | none => trivial
    | some e => exact hc e rfl
  have hloop : Stmt.Spelled P (.loop (condition.getD (.literal (.bool true))) body increment) := by
    cases increment with
    | none => exact ⟨hcondition, hb⟩
    | some e => exact ⟨hcondition, hb, hi e rfl⟩
  cases first with
  | none => exact hloop
  | some s => exact ⟨hf s rfl, hloop, trivial⟩

/-- A phrase is spelled with its tokens, and what follows it has the others. -/
theorem Derives.spelled {rule : Rule} {l : Bool} {ts rest : List Token} {t : rule.Tree}
    (h : Derives rule l ts t rest) (hts : ∀ t ∈ ts, P t) :
    rule.Spelled P t ∧ ∀ t ∈ rest, P t := by
  induction h with
  | simple _ ih | noChoice _ ih | tightest _ ih | bare _ ih => exact ih hts
  | assign hn _ _ ih =>
    obtain ⟨hname, hts⟩ := List.forall_mem_cons.1 hts
    obtain ⟨hv, hrest⟩ := ih (List.forall_mem_cons.1 hts).2
    exact ⟨⟨⟨hname, hn⟩, hv⟩, hrest⟩
  | set _ _ _ iht ihv =>
    obtain ⟨⟨hname, hobject⟩, hts⟩ := iht hts
    obtain ⟨hv, hrest⟩ := ihv (List.forall_mem_cons.1 hts).2
    exact ⟨⟨hname, hobject, hv⟩, hrest⟩
  | choice _ _ _ _ _ ihc iht ihf =>
    obtain ⟨hc, hts⟩ := ihc hts
    obtain ⟨ht, hts⟩ := iht (List.forall_mem_cons.1 hts).2
    obtain ⟨hf, hrest⟩ := ihf (List.forall_mem_cons.1 hts).2
    exact ⟨⟨hc, ht, hf⟩, hrest⟩
  | level _ _ ihf ihm =>
    obtain ⟨hf, hts⟩ := ihf hts
    obtain ⟨hm, hrest⟩ := ihm hts
    exact ⟨spelled_operands hf hm, hrest⟩
  | noOperand | noSuffix => exact ⟨nofun, hts⟩
  | operand _ _ _ ihr ihm =>
    obtain ⟨ho, hts⟩ := List.forall_mem_cons.1 hts
    obtain ⟨hr, hts⟩ := ihr hts
    obtain ⟨hm, hrest⟩ := ihm hts
    exact ⟨List.forall_mem_cons.2 ⟨⟨ho, hr⟩, hm⟩, hrest⟩
  | before _ _ ih =>
    obtain ⟨ho, hts⟩ := List.forall_mem_cons.1 hts
    obtain ⟨he, hrest⟩ := ih hts
    exact ⟨⟨ho, he⟩, hrest⟩
  | after _ _ ih =>
    obtain ⟨he, hts⟩ := ih hts
    obtain ⟨ho, hrest⟩ := List.forall_mem_cons.1 hts
    exact ⟨⟨ho, he⟩, hrest⟩
  | call _ _ ihp ihm =>
    obtain ⟨hp, hts⟩ := ihp hts
    obtain ⟨hm, hrest⟩ := ihm hts
    exact ⟨spelled_suffixes hp hm, hrest⟩
  | callSuffix _ _ _ iha ihm =>
    obtain ⟨⟨ha, hparen⟩, hts⟩ := iha (List.forall_mem_cons.1 hts).2
    obtain ⟨hm, hrest⟩ := ihm hts
    exact ⟨List.forall_mem_cons.2 ⟨⟨hparen, ha⟩, hm⟩, hrest⟩
  | indexSuffix _ _ _ _ ihp ihm =>
    obtain ⟨hb, hts⟩ := List.forall_mem_cons.1 hts
    obtain ⟨hp, hts⟩ := ihp hts
    obtain ⟨hm, hrest⟩ := ihm (List.forall_mem_cons.1 hts).2
    exact ⟨List.forall_mem_cons.2 ⟨⟨hb, hp⟩, hm⟩, hrest⟩
  | getSuffix _ hn _ ihm =>
    obtain ⟨hname, hts⟩ := List.forall_mem_cons.1 (List.forall_mem_cons.1 hts).2
    obtain ⟨hm, hrest⟩ := ihm hts
    exact ⟨List.forall_mem_cons.2 ⟨⟨hname, hn⟩, hm⟩, hrest⟩
  | falseLiteral | trueLiteral | nilLiteral | number | string =>
    exact ⟨trivial, (List.forall_mem_cons.1 hts).2⟩
  | this h =>
    obtain ⟨hkeyword, hrest⟩ := List.forall_mem_cons.1 hts
    exact ⟨⟨hkeyword, h⟩, hrest⟩
  | name h =>
    obtain ⟨hname, hrest⟩ := List.forall_mem_cons.1 hts
    exact ⟨⟨hname, h⟩, hrest⟩
  | group _ _ _ ih =>
    obtain ⟨he, hts⟩ := ih (List.forall_mem_cons.1 hts).2
    exact ⟨he, (List.forall_mem_cons.1 hts).2⟩
  | array _ _ ih =>
    obtain ⟨hb, hts⟩ := List.forall_mem_cons.1 hts
    obtain ⟨⟨he, -⟩, hrest⟩ := ih hts
    exact ⟨⟨hb, he⟩, hrest⟩
  | lambda _ _ _ ih =>
    obtain ⟨hk, hts⟩ := List.forall_mem_cons.1 hts
    obtain ⟨⟨hp, hb⟩, hrest⟩ := ih (List.forall_mem_cons.1 hts).2
    exact ⟨⟨nofun, hp, hb, hk⟩, hrest⟩
  | noArguments =>
    obtain ⟨hclose, hrest⟩ := List.forall_mem_cons.1 hts
    exact ⟨⟨trivial, hclose⟩, hrest⟩
  | someArguments _ _ ih =>
    obtain ⟨he, hts⟩ := ih hts
    obtain ⟨hclose, hrest⟩ := List.forall_mem_cons.1 hts
    exact ⟨⟨he, hclose⟩, hrest⟩
  | lastArgument _ ih =>
    obtain ⟨he, hrest⟩ := ih hts
    exact ⟨⟨he, trivial⟩, hrest⟩
  | nextArgument _ _ _ ih ihm =>
    obtain ⟨he, hts⟩ := ih hts
    obtain ⟨hm, hrest⟩ := ihm (List.forall_mem_cons.1 hts).2
    exact ⟨⟨he, hm⟩, hrest⟩
  | lastParameter hn =>
    obtain ⟨hname, hrest⟩ := List.forall_mem_cons.1 hts
    exact ⟨List.forall_mem_cons.2 ⟨⟨hname, hn⟩, nofun⟩, hrest⟩
  | nextParameter hn _ _ ih =>
    obtain ⟨hname, hts⟩ := List.forall_mem_cons.1 hts
    obtain ⟨hm, hrest⟩ := ih (List.forall_mem_cons.1 hts).2
    exact ⟨List.forall_mem_cons.2 ⟨⟨hname, hn⟩, hm⟩, hrest⟩
  | noParameters _ _ _ ih =>
    obtain ⟨hb, hrest⟩ := ih (List.forall_mem_cons.1 (List.forall_mem_cons.1 hts).2).2
    exact ⟨⟨nofun, hb⟩, hrest⟩
  | someParameters _ _ _ _ ihp ihb =>
    obtain ⟨hp, hts⟩ := ihp hts
    obtain ⟨hb, hrest⟩ := ihb (List.forall_mem_cons.1 (List.forall_mem_cons.1 hts).2).2
    exact ⟨⟨hp, hb⟩, hrest⟩
  | function hn _ _ ih =>
    obtain ⟨hname, hts⟩ := List.forall_mem_cons.1 hts
    obtain ⟨⟨hp, hb⟩, hrest⟩ := ih (List.forall_mem_cons.1 hts).2
    refine ⟨⟨?_, hp, hb, hname⟩, hrest⟩
    rintro _ ⟨⟩
    exact ⟨hname, hn⟩
  | block _ _ ih =>
    obtain ⟨hb, hts⟩ := ih hts
    exact ⟨hb, (List.forall_mem_cons.1 hts).2⟩
  | noDeclaration | noMethod => exact ⟨trivial, hts⟩
  | nextDeclaration _ _ ih ihm | nextMethod _ _ ih ihm =>
    obtain ⟨hfirst, hts⟩ := ih hts
    obtain ⟨hm, hrest⟩ := ihm hts
    exact ⟨⟨hfirst, hm⟩, hrest⟩
  | classDecl _ hn _ _ _ ih =>
    obtain ⟨hname, hts⟩ := List.forall_mem_cons.1 (List.forall_mem_cons.1 hts).2
    obtain ⟨hm, hts⟩ := ih (List.forall_mem_cons.1 hts).2
    exact ⟨⟨⟨hname, hn⟩, hm⟩, (List.forall_mem_cons.1 hts).2⟩
  | functionDecl _ _ ih => exact ih (List.forall_mem_cons.1 hts).2
  | varDecl _ _ ih => exact ih (List.forall_mem_cons.1 hts).2
  | statementDecl _ ih => exact ih hts
  | varTail _ _ ih =>
    obtain ⟨hb, hts⟩ := ih hts
    exact ⟨hb, (List.forall_mem_cons.1 hts).2⟩
  | lastName hn =>
    obtain ⟨hname, hrest⟩ := List.forall_mem_cons.1 hts
    exact ⟨⟨⟨hname, hn⟩, trivial⟩, hrest⟩
  | lastValue hn _ _ ih =>
    obtain ⟨hname, hts⟩ := List.forall_mem_cons.1 hts
    obtain ⟨hv, hrest⟩ := ih (List.forall_mem_cons.1 hts).2
    exact ⟨⟨⟨hname, hn⟩, hv, trivial⟩, hrest⟩
  | nextName hn _ _ ih =>
    obtain ⟨hname, hts⟩ := List.forall_mem_cons.1 hts
    obtain ⟨hm, hrest⟩ := ih (List.forall_mem_cons.1 hts).2
    exact ⟨⟨⟨hname, hn⟩, hm⟩, hrest⟩
  | nextValue hn _ _ _ _ ihv ihm =>
    obtain ⟨hname, hts⟩ := List.forall_mem_cons.1 hts
    obtain ⟨hv, hts⟩ := ihv (List.forall_mem_cons.1 hts).2
    obtain ⟨hm, hrest⟩ := ihm (List.forall_mem_cons.1 hts).2
    exact ⟨⟨⟨hname, hn⟩, hv, hm⟩, hrest⟩
  | noStart => exact ⟨nofun, (List.forall_mem_cons.1 hts).2⟩
  | absent => exact ⟨nofun, hts⟩
  | varStart _ _ ih =>
    obtain ⟨hs, hrest⟩ := ih (List.forall_mem_cons.1 hts).2
    refine ⟨?_, hrest⟩
    rintro _ ⟨⟩
    exact hs
  | expressionStart _ _ ih =>
    obtain ⟨he, hts⟩ := ih hts
    refine ⟨?_, (List.forall_mem_cons.1 hts).2⟩
    rintro _ ⟨⟩
    exact he
  | present _ ih =>
    obtain ⟨he, hrest⟩ := ih hts
    refine ⟨?_, hrest⟩
    rintro _ ⟨⟩
    exact he
  | forStatement _ _ _ _ _ _ _ _ ihs ihc ihi ihb =>
    obtain ⟨hs, hts⟩ := ihs (List.forall_mem_cons.1 (List.forall_mem_cons.1 hts).2).2
    obtain ⟨hc, hts⟩ := ihc hts
    obtain ⟨hi, hts⟩ := ihi (List.forall_mem_cons.1 hts).2
    obtain ⟨hb, hrest⟩ := ihb (List.forall_mem_cons.1 hts).2
    exact ⟨spelled_forLoop hs hc hi hb, hrest⟩
  | ifStatement _ _ _ _ _ ihc iht =>
    obtain ⟨hc, hts⟩ := ihc (List.forall_mem_cons.1 (List.forall_mem_cons.1 hts).2).2
    obtain ⟨ht, hrest⟩ := iht (List.forall_mem_cons.1 hts).2
    exact ⟨⟨hc, ht⟩, hrest⟩
  | elseStatement _ _ _ _ _ _ _ ihc iht ihf =>
    obtain ⟨hc, hts⟩ := ihc (List.forall_mem_cons.1 (List.forall_mem_cons.1 hts).2).2
    obtain ⟨ht, hts⟩ := iht (List.forall_mem_cons.1 hts).2
    obtain ⟨hf, hrest⟩ := ihf (List.forall_mem_cons.1 hts).2
    exact ⟨⟨hc, ht, hf⟩, hrest⟩
  | whileStatement _ _ _ _ _ ihc ihb =>
    obtain ⟨hc, hts⟩ := ihc (List.forall_mem_cons.1 (List.forall_mem_cons.1 hts).2).2
    obtain ⟨hb, hrest⟩ := ihb (List.forall_mem_cons.1 hts).2
    exact ⟨⟨hc, hb⟩, hrest⟩
  | @returnStatement _ _ _ value _ _ _ _ _ ih =>
    obtain ⟨hk, hts⟩ := List.forall_mem_cons.1 hts
    obtain ⟨hv, hts⟩ := ih hts
    refine ⟨?_, (List.forall_mem_cons.1 hts).2⟩
    cases value with
    | none => exact hk
    | some e => exact ⟨hk, hv e rfl⟩
  | breakStatement | continueStatement =>
    obtain ⟨hk, hts⟩ := List.forall_mem_cons.1 hts
    exact ⟨hk, (List.forall_mem_cons.1 hts).2⟩
  | blockStatement _ _ ih => exact ih (List.forall_mem_cons.1 hts).2
  | printStatement _ _ _ ih =>
    obtain ⟨he, hts⟩ := ih (List.forall_mem_cons.1 hts).2
    exact ⟨he, (List.forall_mem_cons.1 hts).2⟩
  | expressionStatement _ _ ih =>
    obtain ⟨he, hts⟩ := ih hts
    exact ⟨he, (List.forall_mem_cons.1 hts).2⟩

/-- A program that was read is spelled with the tokens before the end of the source. -/
theorem stmtsSpelled_of_parseProgram {ts : List Token} {n : Nat} {ss : List Stmt}
    (h : (parseProgram ts n).1 = .ok ss) (hts : ∀ t ∈ ts, t.isEnd = false → P t) :
    stmtsSpelled P ss := by
  have hlen : (Cursor.start ts n).rest.length ≤ ts.length := (List.takeWhile_sublist _).length_le
  have hderives := (Cursor.reads_of_items (clean_start ts n) hlen h).1
  have hrest : ∀ t ∈ (Cursor.start ts n).rest, P t := by
    intro t ht
    have hend := List.all_eq_true.1 List.all_takeWhile t ht
    exact hts t ((List.takeWhile_sublist _).subset ht) (by simpa using hend)
  exact (stmtsSpelled_erase ss).1 (hderives.spelled hrest).1

end

end TreeWalk
