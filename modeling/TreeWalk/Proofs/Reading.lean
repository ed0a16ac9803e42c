import TreeWalk.Proofs.Grammar
import TreeWalk.Proofs.References
import TreeWalk.Proofs.Steady

/-!
# What productions read

A production that succeeds and leaves no fault behind has read a phrase of its rule, its tree is the
tree of the phrase, and the references in the tree are new ones in order (`Reads`). A fault that was
noted stays noted, so the argument runs backwards: if no fault is left after the last part of a
production, none was there before it, and the part before may be looked at in the same way.
-/

namespace TreeWalk

/-- No fault has been noted, and `n` loops surround the place. -/
def Cursor.Clean (n : Nat) (c : Cursor) : Prop :=
  c.faults = [] ∧ c.loops = n

/-- From `c` to `c'` stands a phrase of the rule, with tree `t` and the references `refs`. -/
structure Reads (n : Nat) (rule : Rule) (c : Cursor) (t : rule.Tree) (refs : List Nat)
    (c' : Cursor) : Prop where
  clean : c.Clean n
  derives : Derives rule (decide (0 < n)) c.rest t c'.rest
  numbered : Between c.nextReference refs c'.nextReference

/-- No `else` follows a statement that ends in an `if` without one. -/
def NoElse (short : Bool) (c : Cursor) : Prop :=
  short → c.sees (Token.isKeyword .else_) = false

/-! ### Trees with optional parts -/

/-- The references of an expression that may be absent. -/
def referencesOption (e : Option Expr) : List Nat :=
  e.elim [] Expr.references

@[simp]
theorem erase_returning (keyword : Token) (value : Option Expr) :
    (Stmt.returning keyword value).erase = .returning keyword (value.map Expr.erase) := by
  cases value <;> simp [Stmt.erase]

@[simp]
theorem references_returning (keyword : Token) (value : Option Expr) :
    (Stmt.returning keyword value).references = referencesOption value := by
  cases value <;> simp [Stmt.references, referencesOption]

@[simp]
theorem erase_loop (condition : Expr) (body : Stmt) (increment : Option Expr) :
    (Stmt.loop condition body increment).erase =
      .loop condition.erase body.erase (increment.map Expr.erase) := by
  cases increment <;> simp [Stmt.erase]

@[simp]
theorem references_loop (condition : Expr) (body : Stmt) (increment : Option Expr) :
    (Stmt.loop condition body increment).references =
      condition.references ++ (referencesOption increment ++ body.references) := by
  cases increment <;> simp [Stmt.references, referencesOption]

/-- The tree of a `for` erases to the tree of a `for`. -/
theorem erase_forLoop (first : Option Stmt) (condition increment : Option Expr) (body : Stmt) :
    (forLoop first condition increment body).erase =
      forLoop (first.map Stmt.erase) (condition.map Expr.erase) (increment.map Expr.erase)
        body.erase := by
  cases first <;> cases condition <;> simp [forLoop, Stmt.erase, eraseStmts, Expr.erase]

theorem references_forLoop (first : Option Stmt) (condition increment : Option Expr)
    (body : Stmt) :
    (forLoop first condition increment body).references =
      first.elim [] Stmt.references ++
        (referencesOption condition ++ (referencesOption increment ++ body.references)) := by
  cases first <;> cases condition <;>
    simp [forLoop, Stmt.references, referencesStmts, Expr.references, referencesOption]

theorem erase_node (level : Level) (left right : Expr) (operator : Token) :
    (level.node left operator right).erase = level.attach left.erase (operator, right.erase) := by
  cases level <;> simp [Level.node, Level.attach, Expr.erase]

theorem references_node (level : Level) (left right : Expr) (operator : Token) :
    (level.node left operator right).references = left.references ++ right.references := by
  cases level <;> simp [Level.node, Expr.references]

namespace Production

variable {α β : Type} {c c' : Cursor}

/-! ### Replies taken apart

A cursor before a token is given by the cursor after it. -/

theorem bind_done {p : Production α} {f : α → Production β} {b : β} (h : (p >>= f) c = .done b c') :
    ∃ a c₁, p c = .done a c₁ ∧ f a c₁ = .done b c' := by
  change Production.bind p f c = .done b c' at h
  unfold Production.bind at h
  split at h
  · next a c₁ hp => exact ⟨a, c₁, hp, h⟩
  · cases h

theorem pure_done {a b : α} (h : (pure a : Production α) c = .done b c') : a = b ∧ c = c' := by
  cases h
  exact ⟨rfl, rfl⟩

theorem accept?_done {p : Token → Bool} {o : Option Token} (h : accept? p c = .done o c') :
    (o = none ∧ c.sees p = false ∧ c = c') ∨
      ∃ t, o = some t ∧ p t ∧ c = { c' with rest := t :: c'.rest } := by
  obtain ⟨_ | ⟨t, rest⟩, endLine, loops, faults, nextReference⟩ := c
  · cases h
    exact .inl ⟨rfl, rfl, rfl⟩
  · simp only [accept?] at h
    split at h
    · next ht =>
      cases h
      exact .inr ⟨t, rfl, ht, rfl⟩
    · next ht =>
      cases h
      exact .inl ⟨rfl, Bool.eq_false_iff.2 ht, rfl⟩

theorem expect_done {p : Token → Bool} {what : Expected} {t : Token}
    (h : expect p what c = .done t c') : p t ∧ c = { c' with rest := t :: c'.rest } := by
  obtain ⟨_ | ⟨t, rest⟩, endLine, loops, faults, nextReference⟩ := c
  · cases h
  · simp only [expect] at h
    split at h
    · next ht =>
      cases h
      exact ⟨ht, rfl⟩
    · cases h

theorem check_done {p : Token → Bool} {b : Bool} (h : check p c = .done b c') :
    b = c.sees p ∧ c = c' := by
  cases h
  exact ⟨rfl, rfl⟩

theorem sees_done {p : Token → Bool} (h : c.sees p) : ∃ t rest, c.rest = t :: rest ∧ p t := by
  obtain ⟨_ | ⟨t, rest⟩, endLine, loops, faults, nextReference⟩ := c
  · cases h
  · exact ⟨t, rest, rfl, h⟩

theorem freshReference_done {r : Nat} (h : freshReference c = .done r c') :
    r = c.nextReference ∧ c' = { c with nextReference := c.nextReference + 1 } := by
  cases h
  exact ⟨rfl, rfl⟩

/-- A production that reads in as many loops as `enter` says: what it leaves is in so many loops
again, since it is steady, and `leave` brings back the number from before. -/
theorem withLoops_done {p : Production α} {enter : Nat → Nat} {leave : Nat → Nat → Nat} {a : α}
    {n : Nat} (hback : ∀ n, leave n (enter n) = n) (hp : p.Steady)
    (h : withLoops enter leave p c = .done a c') (hc : c'.Clean n) :
    c.loops = n ∧ ∃ c₁, p { c with loops := enter n } = .done a c₁ ∧ c₁.Clean (enter n) ∧
      c₁.rest = c'.rest ∧ c₁.nextReference = c'.nextReference := by
  unfold withLoops at h
  split at h
  · next a' c₁ hr =>
    cases h
    have hloops : c₁.loops = enter c.loops := (hp.of_done hr).loops
    have hn : leave c.loops c₁.loops = n := hc.2
    rw [hloops, hback] at hn
    subst hn
    exact ⟨rfl, c₁, hr, ⟨hc.1, hloops⟩, rfl, rfl⟩
  · cases h

/-! ### Productions -/

/-- What the productions that count down fuel read with so much of it. -/
structure AllRead (fuel : Nat) : Prop where
  expression : ∀ {n c e c'}, expression fuel c = .done e c' → c'.Clean n →
    Reads n .expression c e.erase e.references c'
  ternary : ∀ {n c e c'}, ternary fuel c = .done e c' → c'.Clean n →
    Reads n .ternary c e.erase e.references c'
  binary : ∀ {levels n c e c'}, binary fuel levels c = .done e c' → c'.Clean n →
    Reads n (.binary levels) c e.erase e.references c'
  binaryRest : ∀ {level tighter left n c e c'}, binaryRest fuel level tighter left c = .done e c' →
    c'.Clean n → ∃ more refs, Reads n (.operands level tighter) c more refs c' ∧
      e.erase = more.foldl level.attach left.erase ∧ e.references = left.references ++ refs
  unary : ∀ {n c e c'}, unary fuel c = .done e c' → c'.Clean n →
    Reads n .unary c e.erase e.references c'
  callRest : ∀ {callee n c e c'}, callRest fuel callee c = .done e c' → c'.Clean n →
    ∃ more refs, Reads n .suffixes c more refs c' ∧
      e.erase = more.foldl Suffix.attach callee.erase ∧ e.references = callee.references ++ refs
  arguments : ∀ {closing what n c values close c'},
    arguments fuel closing what c = .done (values, close) c' → c'.Clean n →
    Reads n (.arguments closing) c (eraseExprs values, close) (referencesExprs values) c'
  argumentList : ∀ {allowed n c values c'}, argumentList fuel allowed c = .done values c' →
    c'.Clean n → Reads n (.argumentList allowed) c (eraseExprs values) (referencesExprs values) c'
  primary : ∀ {n c e c'}, primary fuel c = .done e c' → c'.Clean n →
    Reads n .primary c e.erase e.references c'
  functionTail : ∀ {kind name keyword n c f c'},
    functionTail fuel kind name keyword c = .done f c' → c'.Clean n →
    ∃ names body, f = ⟨name, names, body, keyword⟩ ∧
      Reads n .functionTail c (names, eraseStmts body) (referencesStmts body) c'
  function : ∀ {kind n c f c'}, function fuel kind c = .done f c' → c'.Clean n →
    Reads n .function c f.erase f.references c'
  block : ∀ {n c body c'}, block fuel c = .done body c' → c'.Clean n →
    Reads n .block c (eraseStmts body) (referencesStmts body) c'
  declarations : ∀ {n c body c'}, declarations fuel c = .done body c' → c'.Clean n →
    Reads n .declarations c (eraseStmts body) (referencesStmts body) c'
  declaration : ∀ {n c s c'}, declaration fuel c = .done s c' → c'.Clean n →
    ∃ short, Reads n (.declaration short) c s.erase s.references c'
  methods : ∀ {n c fs c'}, methods fuel c = .done fs c' → c'.Clean n →
    Reads n .methods c (eraseMethods fs) (referencesMethods fs) c'
  varDeclaration : ∀ {n c s c'}, varDeclaration fuel c = .done s c' → c'.Clean n →
    Reads n .varTail c s.erase s.references c'
  bindings : ∀ {n c bs c'}, bindings fuel c = .done bs c' → c'.Clean n →
    Reads n .bindings c (eraseBindings bs) (referencesBindings bs) c'
  statement : ∀ {n c s c'}, statement fuel c = .done s c' → c'.Clean n →
    ∃ short, Reads n (.statement short) c s.erase s.references c' ∧ NoElse short c'
  loopBody : ∀ {n c s c'}, loopBody fuel c = .done s c' → c'.Clean n →
    c.Clean n ∧
      (∃ short, Derives (.statement short) true c.rest s.erase c'.rest ∧ NoElse short c') ∧
      Between c.nextReference s.references c'.nextReference
  forStart : ∀ {n c s c'}, forStart fuel c = .done s c' → c'.Clean n →
    Reads n .forStart c (s.map Stmt.erase) (s.elim [] Stmt.references) c'
  optionalExpression : ∀ {closing n c e c'}, optionalExpression fuel closing c = .done e c' →
    c'.Clean n → Reads n (.optional closing) c (e.map Expr.erase) (referencesOption e) c'
  expressionStatement : ∀ {n c s c'}, expressionStatement fuel c = .done s c' → c'.Clean n →
    ∃ e semicolon, s = .expression e ∧ semicolon.isSymbol .semicolon ∧
      Reads n .expression c e.erase e.references { c' with rest := semicolon :: c'.rest }
  -- behind the keyword or the brace of a statement
  forStatement : ∀ {keyword n c s c'}, keyword.isKeyword .for_ → forStatement fuel c = .done s c' →
    c'.Clean n →
    ∃ short, Reads n (.statement short) { c with rest := keyword :: c.rest } s.erase s.references
      c' ∧ NoElse short c'
  ifStatement : ∀ {keyword n c s c'}, keyword.isKeyword .if_ → ifStatement fuel c = .done s c' →
    c'.Clean n →
    ∃ short, Reads n (.statement short) { c with rest := keyword :: c.rest } s.erase s.references
      c' ∧ NoElse short c'
  whileStatement : ∀ {keyword n c s c'}, keyword.isKeyword .while_ →
    whileStatement fuel c = .done s c' → c'.Clean n →
    ∃ short, Reads n (.statement short) { c with rest := keyword :: c.rest } s.erase s.references
      c' ∧ NoElse short c'
  returnStatement : ∀ {keyword n c s c'}, keyword.isKeyword .return_ →
    returnStatement fuel keyword c = .done s c' → c'.Clean n →
    Reads n (.statement false) { c with rest := keyword :: c.rest } s.erase s.references c'
  blockStatement : ∀ {opening n c s c'}, opening.isSymbol .leftBrace →
    blockStatement fuel c = .done s c' → c'.Clean n →
    Reads n (.statement false) { c with rest := opening :: c.rest } s.erase s.references c'
  printStatement : ∀ {keyword n c s c'}, keyword.isKeyword .print_ →
    printStatement fuel c = .done s c' → c'.Clean n →
    Reads n (.statement false) { c with rest := keyword :: c.rest } s.erase s.references c'

theorem read_parameters {allowed n : Nat} {names : List Token}
    (h : parameters allowed c = .done names c') (hc : c'.Clean n) :
    Reads n (.parameters allowed) c names [] c' := by
  induction allowed generalizing c names with
  | zero => cases h
  | succ allowed ih =>
    rw [parameters] at h
    obtain ⟨name, c₁, rn, k₁⟩ := bind_done h
    obtain ⟨hn, rfl⟩ := expect_done rn
    obtain ⟨o, c₂, ro, k₂⟩ := bind_done k₁
    rcases accept?_done ro with ⟨rfl, -, rfl⟩ | ⟨comma, rfl, hs, rfl⟩
    · obtain ⟨rfl, rfl⟩ := pure_done k₂
      exact ⟨hc, .lastParameter hn, .none (Nat.le_refl _)⟩
    · obtain ⟨more, c₃, rm, k₃⟩ := bind_done k₂
      obtain ⟨rfl, rfl⟩ := pure_done k₃
      have hm := ih rm
      exact ⟨hm.clean, .nextParameter hn hs hm.derives, hm.numbered⟩

theorem allRead_zero : AllRead 0 := by
  constructor <;> intros <;> contradiction

section

variable {fuel n : Nat} (ih : AllRead fuel)

include ih

theorem read_expression {e : Expr} (h : expression (fuel + 1) c = .done e c') (hc : c'.Clean n) :
    Reads n .expression c e.erase e.references c' := by
  rw [expression] at h
  obtain ⟨target, c₁, rt, k₁⟩ := bind_done h
  obtain ⟨o, c₂, ro, k₂⟩ := bind_done k₁
  rcases accept?_done ro with ⟨rfl, -, rfl⟩ | ⟨equals, rfl, he, rfl⟩
  · obtain ⟨rfl, rfl⟩ := pure_done k₂
    have ht := ih.ternary rt hc
    exact ⟨ht.clean, .simple ht.derives, ht.numbered⟩
  · obtain ⟨value, c₃, rv, k₃⟩ := bind_done k₂
    -- only a variable or a property goes on from here
    cases target with
    | «variable» r name =>
      obtain ⟨r', c₄, rr, k₄⟩ := bind_done k₃
      obtain ⟨rfl, rfl⟩ := freshReference_done rr
      obtain ⟨rfl, rfl⟩ := pure_done k₄
      have hv := ih.expression (n := n) rv hc
      have ht := ih.ternary (n := n) rt hv.clean
      obtain ⟨hts, hn⟩ := (ht.derives.call_of_ternary rfl).variable_of_call
      refine ⟨ht.clean, ?_, (Between.none ht.numbered.le).append (hv.numbered.append (.one _))⟩
      rw [hts]
      exact .assign hn he hv.derives
    | get object name =>
      obtain ⟨rfl, rfl⟩ := pure_done k₃
      have hv := ih.expression rv hc
      have ht := ih.ternary (n := n) rt hv.clean
      exact ⟨ht.clean, .set (ht.derives.call_of_ternary rfl) he hv.derives,
        ht.numbered.append hv.numbered⟩
    | _ => cases k₃

theorem read_ternary {e : Expr} (h : ternary (fuel + 1) c = .done e c') (hc : c'.Clean n) :
    Reads n .ternary c e.erase e.references c' := by
  rw [ternary] at h
  obtain ⟨condition, c₁, rb, k₁⟩ := bind_done h
  obtain ⟨o, c₂, ro, k₂⟩ := bind_done k₁
  rcases accept?_done ro with ⟨rfl, -, rfl⟩ | ⟨question, rfl, hq, rfl⟩
  · obtain ⟨rfl, rfl⟩ := pure_done k₂
    have hb := ih.binary rb hc
    exact ⟨hb.clean, .noChoice hb.derives, hb.numbered⟩
  · obtain ⟨whenTrue, c₃, rt, k₃⟩ := bind_done k₂
    obtain ⟨colon, c₄, rs, k₄⟩ := bind_done k₃
    obtain ⟨hs, rfl⟩ := expect_done rs
    obtain ⟨whenFalse, c₅, rf, k₅⟩ := bind_done k₄
    obtain ⟨rfl, rfl⟩ := pure_done k₅
    have hf := ih.ternary rf hc
    have ht := ih.ternary (n := n) rt hf.clean
    have hb := ih.binary (n := n) rb ht.clean
    exact ⟨hb.clean, .choice hb.derives hq ht.derives hs hf.derives,
      hb.numbered.append (ht.numbered.append hf.numbered)⟩

theorem read_binary {levels : List Level} {e : Expr}
    (h : binary (fuel + 1) levels c = .done e c') (hc : c'.Clean n) :
    Reads n (.binary levels) c e.erase e.references c' := by
  cases levels with
  | nil =>
    rw [binary] at h
    have hu := ih.unary h hc
    exact ⟨hu.clean, .tightest hu.derives, hu.numbered⟩
  | cons level tighter =>
    rw [binary] at h
    obtain ⟨left, c₁, rl, k₁⟩ := bind_done h
    obtain ⟨more, refs, hm, he, hr⟩ := ih.binaryRest k₁ hc
    have hl := ih.binary rl hm.clean
    rw [he, hr]
    exact ⟨hl.clean, .level hl.derives hm.derives, hl.numbered.append hm.numbered⟩

theorem read_binaryRest {level : Level} {tighter : List Level} {left e : Expr}
    (h : binaryRest (fuel + 1) level tighter left c = .done e c') (hc : c'.Clean n) :
    ∃ more refs, Reads n (.operands level tighter) c more refs c' ∧
      e.erase = more.foldl level.attach left.erase ∧ e.references = left.references ++ refs := by
  rw [binaryRest] at h
  obtain ⟨o, c₁, ro, k₁⟩ := bind_done h
  rcases accept?_done ro with ⟨rfl, -, rfl⟩ | ⟨operator, rfl, ho, rfl⟩
  · obtain ⟨rfl, rfl⟩ := pure_done k₁
    exact ⟨[], [], ⟨hc, .noOperand, .none (Nat.le_refl _)⟩, rfl, by simp⟩
  · obtain ⟨right, c₂, rr, k₂⟩ := bind_done k₁
    obtain ⟨more, refs, hm, he, hrefs⟩ := ih.binaryRest k₂ hc
    have hr := ih.binary (n := n) rr hm.clean
    refine ⟨(operator, right.erase) :: more, right.references ++ refs,
      ⟨hr.clean, .operand ho hr.derives hm.derives, hr.numbered.append hm.numbered⟩, ?_, ?_⟩
    · rw [he, erase_node, List.foldl_cons]
    · rw [hrefs, references_node, List.append_assoc]

theorem read_unary {e : Expr} (h : unary (fuel + 1) c = .done e c') (hc : c'.Clean n) :
    Reads n .unary c e.erase e.references c' := by
  rw [unary] at h
  obtain ⟨o, c₁, ro, k₁⟩ := bind_done h
  rcases accept?_done ro with ⟨rfl, -, rfl⟩ | ⟨operator, rfl, ho, rfl⟩
  · obtain ⟨operand, c₂, rp, k₂⟩ := bind_done k₁
    obtain ⟨callee, c₃, rm, k₃⟩ := bind_done k₂
    obtain ⟨o, c₄, ra, k₄⟩ := bind_done k₃
    have hcall : ∀ c₃ : Cursor, callRest fuel operand c₂ = .done callee c₃ → c₃.Clean n →
        Reads n .call c callee.erase callee.references c₃ := by
      intro c₃ hm hc
      obtain ⟨more, refs, hm, he, hr⟩ := ih.callRest hm hc
      have hp := ih.primary rp hm.clean
      rw [he, hr]
      exact ⟨hp.clean, .call hp.derives hm.derives, hp.numbered.append hm.numbered⟩
    rcases accept?_done ra with ⟨rfl, -, rfl⟩ | ⟨operator, rfl, ho, rfl⟩
    · obtain ⟨rfl, rfl⟩ := pure_done k₄
      have hcall := hcall _ rm hc
      exact ⟨hcall.clean, .bare hcall.derives, hcall.numbered⟩
    · obtain ⟨rfl, rfl⟩ := pure_done k₄
      have hcall := hcall _ rm hc
      exact ⟨hcall.clean, .after hcall.derives ho, hcall.numbered⟩
  · obtain ⟨operand, c₂, ru, k₂⟩ := bind_done k₁
    obtain ⟨rfl, rfl⟩ := pure_done k₂
    have hu := ih.unary (n := n) ru hc
    exact ⟨hu.clean, .before ho hu.derives, hu.numbered⟩

theorem read_callRest {callee e : Expr} (h : callRest (fuel + 1) callee c = .done e c')
    (hc : c'.Clean n) :
    ∃ more refs, Reads n .suffixes c more refs c' ∧
      e.erase = more.foldl Suffix.attach callee.erase ∧ e.references = callee.references ++ refs := by
  rw [callRest] at h
  obtain ⟨o, c₁, ro, k₁⟩ := bind_done h
  rcases accept?_done ro with ⟨rfl, -, rfl⟩ | ⟨opening, rfl, ho, rfl⟩
  · obtain ⟨o, c₂, rb, k₂⟩ := bind_done k₁
    rcases accept?_done rb with ⟨rfl, -, rfl⟩ | ⟨bracket, rfl, hb, rfl⟩
    · obtain ⟨o, c₃, rd, k₃⟩ := bind_done k₂
      rcases accept?_done rd with ⟨rfl, -, rfl⟩ | ⟨dot, rfl, hd, rfl⟩
      · obtain ⟨rfl, rfl⟩ := pure_done k₃
        exact ⟨[], [], ⟨hc, .noSuffix, .none (Nat.le_refl _)⟩, rfl, by simp⟩
      · obtain ⟨name, c₄, rn, k₄⟩ := bind_done k₃
        obtain ⟨hn, rfl⟩ := expect_done rn
        obtain ⟨more, refs, hm, he, hr⟩ := ih.callRest k₄ hc
        exact ⟨.get name :: more, refs, ⟨hm.clean, .getSuffix hd hn hm.derives, hm.numbered⟩, he, hr⟩
    · obtain ⟨position, c₃, rp, k₃⟩ := bind_done k₂
      obtain ⟨close, c₄, rs, k₄⟩ := bind_done k₃
      obtain ⟨hs, rfl⟩ := expect_done rs
      obtain ⟨more, refs, hm, he, hr⟩ := ih.callRest k₄ hc
      have hp := ih.expression (n := n) rp hm.clean
      refine ⟨.index bracket position.erase :: more, position.references ++ refs,
        ⟨hp.clean, .indexSuffix hb hp.derives hs hm.derives, hp.numbered.append hm.numbered⟩, he, ?_⟩
      rw [hr, Expr.references, List.append_assoc]
  · obtain ⟨⟨values, paren⟩, c₂, ra, k₂⟩ := bind_done k₁
    obtain ⟨more, refs, hm, he, hr⟩ := ih.callRest k₂ hc
    have ha := ih.arguments (n := n) ra hm.clean
    refine ⟨.call paren (eraseExprs values) :: more, referencesExprs values ++ refs,
      ⟨ha.clean, .callSuffix ho ha.derives hm.derives, ha.numbered.append hm.numbered⟩, he, ?_⟩
    rw [hr, Expr.references, List.append_assoc]

theorem read_arguments {closing : Symbol} {what : Expected} {values : List Expr} {close : Token}
    (h : arguments (fuel + 1) closing what c = .done (values, close) c') (hc : c'.Clean n) :
    Reads n (.arguments closing) c (eraseExprs values, close) (referencesExprs values) c' := by
  rw [arguments] at h
  obtain ⟨closes, c₁, rb, k₁⟩ := bind_done h
  obtain ⟨hb, rfl⟩ := check_done rb
  split at k₁
  · obtain ⟨values, c₂, rv, k₂⟩ := bind_done k₁
    obtain ⟨rfl, rfl⟩ := pure_done rv
    obtain ⟨close, c₃, rs, k₃⟩ := bind_done k₂
    obtain ⟨hs, rfl⟩ := expect_done rs
    obtain ⟨heq, rfl⟩ := pure_done k₃
    cases heq
    exact ⟨hc, .noArguments hs, .none (Nat.le_refl _)⟩
  · obtain ⟨values, c₂, rv, k₂⟩ := bind_done k₁
    obtain ⟨close, c₃, rs, k₃⟩ := bind_done k₂
    obtain ⟨hs, rfl⟩ := expect_done rs
    obtain ⟨heq, rfl⟩ := pure_done k₃
    cases heq
    have hv := ih.argumentList (n := n) rv hc
    exact ⟨hv.clean, .someArguments hv.derives hs, hv.numbered⟩

theorem read_argumentList {allowed : Nat} {values : List Expr}
    (h : argumentList (fuel + 1) allowed c = .done values c') (hc : c'.Clean n) :
    Reads n (.argumentList allowed) c (eraseExprs values) (referencesExprs values) c' := by
  cases allowed with
  | zero => rw [argumentList] at h; cases h
  | succ allowed =>
    rw [argumentList] at h
    obtain ⟨e, c₁, re, k₁⟩ := bind_done h
    obtain ⟨o, c₂, ro, k₂⟩ := bind_done k₁
    rcases accept?_done ro with ⟨rfl, -, rfl⟩ | ⟨comma, rfl, hs, rfl⟩
    · obtain ⟨rfl, rfl⟩ := pure_done k₂
      have he := ih.expression re hc
      refine ⟨he.clean, .lastArgument he.derives, ?_⟩
      rw [referencesExprs, referencesExprs, List.append_nil]
      exact he.numbered
    · obtain ⟨es, c₃, rm, k₃⟩ := bind_done k₂
      obtain ⟨rfl, rfl⟩ := pure_done k₃
      have hm := ih.argumentList rm hc
      have he := ih.expression (n := n) re hm.clean
      exact ⟨he.clean, .nextArgument he.derives hs hm.derives, he.numbered.append hm.numbered⟩

theorem read_primary {e : Expr} (h : primary (fuel + 1) c = .done e c') (hc : c'.Clean n) :
    Reads n .primary c e.erase e.references c' := by
  rw [primary] at h
  obtain ⟨_ | ⟨t, rest⟩, endLine, loops, faults, nextReference⟩ := c
  · cases h
  · dsimp only at h
    split at h
    · next hk => cases h; exact ⟨hc, .falseLiteral (Token.isKeyword_iff.2 hk), .none (Nat.le_refl _)⟩
    · next hk => cases h; exact ⟨hc, .trueLiteral (Token.isKeyword_iff.2 hk), .none (Nat.le_refl _)⟩
    · next hk => cases h; exact ⟨hc, .nilLiteral (Token.isKeyword_iff.2 hk), .none (Nat.le_refl _)⟩
    · next hk => cases h; exact ⟨hc, .number hk, .none (Nat.le_refl _)⟩
    · next hk => cases h; exact ⟨hc, .string hk, .none (Nat.le_refl _)⟩
    · next hk => cases h; exact ⟨hc, .this (Token.isKeyword_iff.2 hk), .one _⟩
    · next hk => cases h; exact ⟨hc, .name (Token.isIdentifier_iff.2 hk), .one _⟩
    · next hk =>
      obtain ⟨inner, c₁, re, k₁⟩ := bind_done h
      obtain ⟨close, c₂, rs, k₂⟩ := bind_done k₁
      obtain ⟨hs, rfl⟩ := expect_done rs
      obtain ⟨rfl, rfl⟩ := pure_done k₂
      have he := ih.expression (n := n) re hc
      exact ⟨he.clean, .group (Token.isSymbol_iff.2 hk) he.derives hs, he.numbered⟩
    · next hk =>
      obtain ⟨⟨elements, close⟩, c₁, ra, k₁⟩ := bind_done h
      obtain ⟨rfl, rfl⟩ := pure_done k₁
      have ha := ih.arguments (n := n) ra hc
      exact ⟨ha.clean, .array (Token.isSymbol_iff.2 hk) ha.derives, ha.numbered⟩
    · next hk =>
      obtain ⟨opening, c₁, ro, k₁⟩ := bind_done h
      obtain ⟨ho, heq⟩ := expect_done ro
      obtain ⟨f, c₂, rf, k₂⟩ := bind_done k₁
      obtain ⟨rfl, rfl⟩ := pure_done k₂
      obtain ⟨names, body, rfl, hf⟩ := ih.functionTail (n := n) rf hc
      cases heq
      exact ⟨hf.clean, .lambda (Token.isKeyword_iff.2 hk) ho hf.derives, hf.numbered⟩
    · cases h

/-- What follows the parameters of a function. -/
theorem read_functionBody {kind : FunctionKind} {name : Option Token} {names : List Token}
    {keyword : Token} {f : FunctionDecl}
    (h : (do
      let _ ← symbol .rightParen .closeParameters
      let _ ← symbol .leftBrace (.openFunctionBody kind)
      let body ← withLoops (fun _ => 0) (fun before _ => before) (block fuel)
      return (⟨name, names, body, keyword⟩ : FunctionDecl) : Production FunctionDecl) c = .done f c')
    (hc : c'.Clean n) :
    ∃ (body : List Stmt) (close opening : Token) (c₁ : Cursor),
      f = ⟨name, names, body, keyword⟩ ∧ close.isSymbol .rightParen ∧ opening.isSymbol .leftBrace ∧
      c = { c₁ with rest := close :: opening :: c₁.rest } ∧ c₁.Clean n ∧
      Derives .block false c₁.rest (eraseStmts body) c'.rest ∧
      Between c₁.nextReference (referencesStmts body) c'.nextReference := by
  obtain ⟨close, c₁, rs, k₁⟩ := bind_done h
  obtain ⟨opening, c₂, ro, k₂⟩ := bind_done k₁
  obtain ⟨body, c₃, rb, k₃⟩ := bind_done k₂
  obtain ⟨rfl, rfl⟩ := pure_done k₃
  obtain ⟨ho, rfl⟩ := expect_done ro
  obtain ⟨hs, rfl⟩ := expect_done rs
  obtain ⟨hn, c₄, rblock, hc₄, hrest, href⟩ := withLoops_done (fun _ => rfl) (allSteady fuel).block rb hc
  have hb := ih.block rblock hc₄
  refine ⟨body, close, opening, c₂, rfl, hs, ho, rfl, ⟨hb.clean.1, hn⟩, ?_, ?_⟩
  · rw [← hrest]
    exact hb.derives
  · rw [← href]
    exact hb.numbered

theorem read_functionTail {kind : FunctionKind} {name : Option Token} {keyword : Token}
    {f : FunctionDecl} (h : functionTail (fuel + 1) kind name keyword c = .done f c')
    (hc : c'.Clean n) :
    ∃ names body, f = ⟨name, names, body, keyword⟩ ∧
      Reads n .functionTail c (names, eraseStmts body) (referencesStmts body) c' := by
  rw [functionTail] at h
  obtain ⟨closes, c₁, rb, k₁⟩ := bind_done h
  obtain ⟨-, rfl⟩ := check_done rb
  dsimp only at k₁
  split at k₁
  · obtain ⟨names, c₂, rn, k₂⟩ := bind_done k₁
    obtain ⟨rfl, rfl⟩ := pure_done rn
    obtain ⟨body, close, opening, c₃, rfl, hs, ho, rfl, hc₃, hd, hb⟩ := read_functionBody ih k₂ hc
    exact ⟨[], body, rfl, hc₃, .noParameters hs ho hd, hb⟩
  · obtain ⟨names, c₂, rn, k₂⟩ := bind_done k₁
    obtain ⟨body, close, opening, c₃, rfl, hs, ho, rfl, hc₃, hd, hb⟩ := read_functionBody ih k₂ hc
    have hp := read_parameters (n := n) rn hc₃
    exact ⟨names, body, rfl, hp.clean, .someParameters hp.derives hs ho hd, hp.numbered.append hb⟩

theorem read_function {kind : FunctionKind} {f : FunctionDecl}
    (h : function (fuel + 1) kind c = .done f c') (hc : c'.Clean n) :
    Reads n .function c f.erase f.references c' := by
  rw [function] at h
  obtain ⟨name, c₁, rn, k₁⟩ := bind_done h
  obtain ⟨hn, rfl⟩ := expect_done rn
  obtain ⟨opening, c₂, ro, k₂⟩ := bind_done k₁
  obtain ⟨ho, rfl⟩ := expect_done ro
  obtain ⟨names, body, rfl, hf⟩ := ih.functionTail k₂ hc
  exact ⟨hf.clean, .function hn ho hf.derives, hf.numbered⟩

theorem read_block {body : List Stmt} (h : block (fuel + 1) c = .done body c') (hc : c'.Clean n) :
    Reads n .block c (eraseStmts body) (referencesStmts body) c' := by
  rw [block] at h
  obtain ⟨body, c₁, rb, k₁⟩ := bind_done h
  obtain ⟨close, c₂, rs, k₂⟩ := bind_done k₁
  obtain ⟨hs, rfl⟩ := expect_done rs
  obtain ⟨rfl, rfl⟩ := pure_done k₂
  have hb := ih.declarations (n := n) rb hc
  exact ⟨hb.clean, .block hb.derives hs, hb.numbered⟩

theorem read_declarations {body : List Stmt} (h : declarations (fuel + 1) c = .done body c')
    (hc : c'.Clean n) :
    Reads n .declarations c (eraseStmts body) (referencesStmts body) c' := by
  rw [declarations] at h
  obtain ⟨ends, c₁, re, k₁⟩ := bind_done h
  cases re
  split at k₁
  · obtain ⟨rfl, rfl⟩ := pure_done k₁
    exact ⟨hc, .noDeclaration, .none (Nat.le_refl _)⟩
  · obtain ⟨o, c₂, ro, k₂⟩ := bind_done k₁
    unfold recovering at ro
    split at ro
    · next s c₃ rd =>
      cases ro
      obtain ⟨rest, c₄, rr, k₃⟩ := bind_done k₂
      obtain ⟨rfl, rfl⟩ := pure_done k₃
      have hr := ih.declarations rr hc
      obtain ⟨short, hd⟩ := ih.declaration rd hr.clean
      exact ⟨hd.clean, .nextDeclaration hd.derives hr.derives, hd.numbered.append hr.numbered⟩
    · -- a fault that was recovered from is still there
      next fault c₃ rd =>
      cases ro
      have hr := ih.declarations k₂ hc
      have hfaults : c₃.faults ++ [fault] = [] := hr.clean.1
      simp at hfaults

theorem read_methods {fs : List FunctionDecl} (h : methods (fuel + 1) c = .done fs c')
    (hc : c'.Clean n) :
    Reads n .methods c (eraseMethods fs) (referencesMethods fs) c' := by
  rw [methods] at h
  obtain ⟨ends, c₁, re, k₁⟩ := bind_done h
  cases re
  split at k₁
  · obtain ⟨rfl, rfl⟩ := pure_done k₁
    exact ⟨hc, .noMethod, .none (Nat.le_refl _)⟩
  · obtain ⟨f, c₂, rf, k₂⟩ := bind_done k₁
    obtain ⟨fs, c₃, rm, k₃⟩ := bind_done k₂
    obtain ⟨rfl, rfl⟩ := pure_done k₃
    have hm := ih.methods rm hc
    have hf := ih.function rf hm.clean
    exact ⟨hf.clean, .nextMethod hf.derives hm.derives, hf.numbered.append hm.numbered⟩

theorem read_varDeclaration {s : Stmt} (h : varDeclaration (fuel + 1) c = .done s c')
    (hc : c'.Clean n) : Reads n .varTail c s.erase s.references c' := by
  rw [varDeclaration] at h
  obtain ⟨bs, c₁, rb, k₁⟩ := bind_done h
  obtain ⟨semicolon, c₂, rs, k₂⟩ := bind_done k₁
  obtain ⟨hs, rfl⟩ := expect_done rs
  obtain ⟨rfl, rfl⟩ := pure_done k₂
  have hb := ih.bindings (n := n) rb hc
  exact ⟨hb.clean, .varTail hb.derives hs, hb.numbered⟩

theorem read_bindings {bs : List (Token × Option Expr)}
    (h : bindings (fuel + 1) c = .done bs c') (hc : c'.Clean n) :
    Reads n .bindings c (eraseBindings bs) (referencesBindings bs) c' := by
  rw [bindings] at h
  obtain ⟨name, c₁, rn, k₁⟩ := bind_done h
  obtain ⟨hn, rfl⟩ := expect_done rn
  obtain ⟨o, c₂, re, k₂⟩ := bind_done k₁
  rcases accept?_done re with ⟨rfl, -, rfl⟩ | ⟨equals, rfl, he, rfl⟩
  · obtain ⟨value, c₃, rv, k₃⟩ := bind_done k₂
    obtain ⟨rfl, rfl⟩ := pure_done rv
    obtain ⟨o, c₄, ro, k₄⟩ := bind_done k₃
    rcases accept?_done ro with ⟨rfl, -, rfl⟩ | ⟨comma, rfl, hs, rfl⟩
    · obtain ⟨rfl, rfl⟩ := pure_done k₄
      exact ⟨hc, .lastName hn, .none (Nat.le_refl _)⟩
    · obtain ⟨more, c₅, rm, k₅⟩ := bind_done k₄
      obtain ⟨rfl, rfl⟩ := pure_done k₅
      have hm := ih.bindings (n := n) rm hc
      exact ⟨hm.clean, .nextName hn hs hm.derives, hm.numbered⟩
  · obtain ⟨value, c₃, ra, k₃⟩ := bind_done k₂
    obtain ⟨e, c₄, rv, k₄⟩ := bind_done ra
    obtain ⟨rfl, rfl⟩ := pure_done k₄
    obtain ⟨o, c₅, ro, k₅⟩ := bind_done k₃
    rcases accept?_done ro with ⟨rfl, -, rfl⟩ | ⟨comma, rfl, hs, rfl⟩
    · obtain ⟨rfl, rfl⟩ := pure_done k₅
      have hv := ih.expression (n := n) rv hc
      refine ⟨hv.clean, .lastValue hn he hv.derives, ?_⟩
      rw [referencesBindings, referencesBindings, List.append_nil]
      exact hv.numbered
    · obtain ⟨more, c₆, rm, k₆⟩ := bind_done k₅
      obtain ⟨rfl, rfl⟩ := pure_done k₆
      have hm := ih.bindings (n := n) rm hc
      have hv := ih.expression (n := n) rv hm.clean
      exact ⟨hv.clean, .nextValue hn he hv.derives hs hm.derives, hv.numbered.append hm.numbered⟩

theorem read_declaration {s : Stmt} (h : declaration (fuel + 1) c = .done s c') (hc : c'.Clean n) :
    ∃ short, Reads n (.declaration short) c s.erase s.references c' := by
  rw [declaration] at h
  obtain ⟨o, c₁, ro, k₁⟩ := bind_done h
  rcases accept?_done ro with ⟨rfl, -, rfl⟩ | ⟨keyword, rfl, hk, rfl⟩
  · obtain ⟨starts, c₂, rf, k₂⟩ := bind_done k₁
    cases rf
    split at k₂
    · next hstarts =>
      obtain ⟨o, c₃, rk, k₃⟩ := bind_done k₂
      rcases accept?_done rk with ⟨rfl, -, rfl⟩ | ⟨keyword, rfl, hk, rfl⟩
      · -- the keyword was seen, so it is there to take
        simp only [Bool.and_eq_true] at hstarts
        obtain ⟨t, rest, hrest, ht⟩ := sees_done hstarts.1
        simp [keyword?, accept?, hrest, ht] at rk
      · obtain ⟨f, c₄, rf, k₄⟩ := bind_done k₃
        obtain ⟨rfl, rfl⟩ := pure_done k₄
        have hf := ih.function (n := n) rf hc
        exact ⟨false, hf.clean, .functionDecl hk hf.derives, hf.numbered⟩
    · obtain ⟨o, c₃, rk, k₃⟩ := bind_done k₂
      rcases accept?_done rk with ⟨rfl, -, rfl⟩ | ⟨keyword, rfl, hk, rfl⟩
      · obtain ⟨short, hs, -⟩ := ih.statement k₃ hc
        exact ⟨short, hs.clean, .statementDecl hs.derives, hs.numbered⟩
      · have hv := ih.varDeclaration (n := n) k₃ hc
        exact ⟨false, hv.clean, .varDecl hk hv.derives, hv.numbered⟩
  · obtain ⟨name, c₂, rn, k₂⟩ := bind_done k₁
    obtain ⟨hn, rfl⟩ := expect_done rn
    obtain ⟨opening, c₃, rb, k₃⟩ := bind_done k₂
    obtain ⟨hb, rfl⟩ := expect_done rb
    obtain ⟨members, c₄, rm, k₄⟩ := bind_done k₃
    obtain ⟨close, c₅, rs, k₅⟩ := bind_done k₄
    obtain ⟨hs, rfl⟩ := expect_done rs
    obtain ⟨rfl, rfl⟩ := pure_done k₅
    have hm := ih.methods (n := n) rm hc
    exact ⟨false, hm.clean, .classDecl hk hn hb hm.derives hs, hm.numbered⟩

theorem read_loopBody {s : Stmt} (h : loopBody (fuel + 1) c = .done s c') (hc : c'.Clean n) :
    c.Clean n ∧
      (∃ short, Derives (.statement short) true c.rest s.erase c'.rest ∧ NoElse short c') ∧
      Between c.nextReference s.references c'.nextReference := by
  rw [loopBody] at h
  obtain ⟨hn, c₁, rs, hc₁, hrest, href⟩ := withLoops_done (fun _ => rfl) (allSteady fuel).statement h hc
  obtain ⟨short, hs, helse⟩ := ih.statement rs hc₁
  refine ⟨⟨hs.clean.1, hn⟩, ⟨short, ?_, ?_⟩, ?_⟩
  · rw [← hrest]
    have hd := hs.derives
    rwa [decide_eq_true (Nat.succ_pos n)] at hd
  · intro hshort
    rw [← helse hshort, Cursor.sees, Cursor.sees, hrest]
  · rw [← href]
    exact hs.numbered

theorem read_expressionStatement {s : Stmt} (h : expressionStatement (fuel + 1) c = .done s c')
    (hc : c'.Clean n) :
    ∃ e semicolon, s = .expression e ∧ semicolon.isSymbol .semicolon ∧
      Reads n .expression c e.erase e.references { c' with rest := semicolon :: c'.rest } := by
  rw [expressionStatement] at h
  obtain ⟨e, c₁, re, k₁⟩ := bind_done h
  obtain ⟨semicolon, c₂, rs, k₂⟩ := bind_done k₁
  obtain ⟨hs, rfl⟩ := expect_done rs
  obtain ⟨rfl, rfl⟩ := pure_done k₂
  exact ⟨e, semicolon, rfl, hs, ih.expression re hc⟩

theorem read_forStart {s : Option Stmt} (h : forStart (fuel + 1) c = .done s c')
    (hc : c'.Clean n) :
    Reads n .forStart c (s.map Stmt.erase) (s.elim [] Stmt.references) c' := by
  rw [forStart] at h
  obtain ⟨o, c₁, ro, k₁⟩ := bind_done h
  rcases accept?_done ro with ⟨rfl, -, rfl⟩ | ⟨semicolon, rfl, hs, rfl⟩
  · obtain ⟨o, c₂, rk, k₂⟩ := bind_done k₁
    rcases accept?_done rk with ⟨rfl, -, rfl⟩ | ⟨keyword, rfl, hk, rfl⟩
    · obtain ⟨s, c₃, re, k₃⟩ := bind_done k₂
      obtain ⟨rfl, rfl⟩ := pure_done k₃
      obtain ⟨e, semicolon, rfl, hs, he⟩ := ih.expressionStatement re hc
      exact ⟨he.clean, .expressionStart he.derives hs, he.numbered⟩
    · obtain ⟨s, c₃, rv, k₃⟩ := bind_done k₂
      obtain ⟨rfl, rfl⟩ := pure_done k₃
      have hv := ih.varDeclaration (n := n) rv hc
      exact ⟨hv.clean, .varStart hk hv.derives, hv.numbered⟩
  · obtain ⟨rfl, rfl⟩ := pure_done k₁
    exact ⟨hc, .noStart hs, .none (Nat.le_refl _)⟩

theorem read_optionalExpression {closing : Symbol} {e : Option Expr}
    (h : optionalExpression (fuel + 1) closing c = .done e c') (hc : c'.Clean n) :
    Reads n (.optional closing) c (e.map Expr.erase) (referencesOption e) c' := by
  rw [optionalExpression] at h
  obtain ⟨closes, c₁, rb, k₁⟩ := bind_done h
  obtain ⟨hb, rfl⟩ := check_done rb
  split at k₁
  · next hcloses =>
    obtain ⟨rfl, rfl⟩ := pure_done k₁
    obtain ⟨t, rest, hrest, ht⟩ := sees_done (hb ▸ hcloses)
    refine ⟨hc, ?_, .none (Nat.le_refl _)⟩
    rw [hrest]
    exact .absent ht
  · obtain ⟨e, c₂, re, k₂⟩ := bind_done k₁
    obtain ⟨rfl, rfl⟩ := pure_done k₂
    have he := ih.expression re hc
    exact ⟨he.clean, .present he.derives, he.numbered⟩

theorem read_forStatement {keyword : Token} {s : Stmt} (hk : keyword.isKeyword .for_)
    (h : forStatement (fuel + 1) c = .done s c') (hc : c'.Clean n) :
    ∃ short, Reads n (.statement short) { c with rest := keyword :: c.rest } s.erase s.references
      c' ∧ NoElse short c' := by
  rw [forStatement] at h
  obtain ⟨opening, c₁, ro, k₁⟩ := bind_done h
  obtain ⟨ho, rfl⟩ := expect_done ro
  obtain ⟨first, c₂, rf, k₂⟩ := bind_done k₁
  obtain ⟨condition, c₃, rc, k₃⟩ := bind_done k₂
  obtain ⟨semicolon, c₄, rs, k₄⟩ := bind_done k₃
  obtain ⟨hs, rfl⟩ := expect_done rs
  obtain ⟨increment, c₅, ri, k₅⟩ := bind_done k₄
  obtain ⟨close, c₆, rp, k₆⟩ := bind_done k₅
  obtain ⟨hp, rfl⟩ := expect_done rp
  obtain ⟨body, c₇, rb, k₇⟩ := bind_done k₆
  have htree : s = forLoop first condition increment body ∧ c₇ = c' := by
    cases first <;> obtain ⟨rfl, rfl⟩ := pure_done k₇ <;> exact ⟨rfl, rfl⟩
  obtain ⟨rfl, rfl⟩ := htree
  obtain ⟨hc₆, ⟨short, hb, helse⟩, hbr⟩ := ih.loopBody rb hc
  have hi := ih.optionalExpression (n := n) ri hc₆
  have hcond := ih.optionalExpression (n := n) rc hi.clean
  have hf := ih.forStart (n := n) rf hcond.clean
  rw [erase_forLoop, references_forLoop]
  exact ⟨short, ⟨hf.clean, .forStatement hk ho hf.derives hcond.derives hs hi.derives hp hb,
    hf.numbered.append (hcond.numbered.append (hi.numbered.append hbr))⟩, helse⟩

theorem read_ifStatement {keyword : Token} {s : Stmt} (hk : keyword.isKeyword .if_)
    (h : ifStatement (fuel + 1) c = .done s c') (hc : c'.Clean n) :
    ∃ short, Reads n (.statement short) { c with rest := keyword :: c.rest } s.erase s.references
      c' ∧ NoElse short c' := by
  rw [ifStatement] at h
  obtain ⟨opening, c₁, ro, k₁⟩ := bind_done h
  obtain ⟨ho, rfl⟩ := expect_done ro
  obtain ⟨condition, c₂, rc, k₂⟩ := bind_done k₁
  obtain ⟨close, c₃, rp, k₃⟩ := bind_done k₂
  obtain ⟨hp, rfl⟩ := expect_done rp
  obtain ⟨whenTrue, c₄, rt, k₄⟩ := bind_done k₃
  obtain ⟨o, c₅, re, k₅⟩ := bind_done k₄
  rcases accept?_done re with ⟨rfl, helse, rfl⟩ | ⟨other, rfl, he, rfl⟩
  · obtain ⟨rfl, rfl⟩ := pure_done k₅
    obtain ⟨short, ht, -⟩ := ih.statement rt hc
    have hcond := ih.expression (n := n) rc ht.clean
    exact ⟨true, ⟨hcond.clean, .ifStatement hk ho hcond.derives hp ht.derives,
      hcond.numbered.append ht.numbered⟩, fun _ => helse⟩
  · obtain ⟨whenFalse, c₆, rf, k₆⟩ := bind_done k₅
    obtain ⟨rfl, rfl⟩ := pure_done k₆
    obtain ⟨short, hf, helse⟩ := ih.statement rf hc
    obtain ⟨short', ht, helse'⟩ := ih.statement (n := n) rt hf.clean
    have hcond := ih.expression (n := n) rc ht.clean
    -- the branch is followed by an `else`, so it is not short
    have hshort : short' = false := by
      cases short' with
      | false => rfl
      | true => rw [← helse' rfl]; exact he.symm
    subst hshort
    exact ⟨short, ⟨hcond.clean, .elseStatement hk ho hcond.derives hp ht.derives he hf.derives,
      hcond.numbered.append (ht.numbered.append hf.numbered)⟩, helse⟩

theorem read_whileStatement {keyword : Token} {s : Stmt} (hk : keyword.isKeyword .while_)
    (h : whileStatement (fuel + 1) c = .done s c') (hc : c'.Clean n) :
    ∃ short, Reads n (.statement short) { c with rest := keyword :: c.rest } s.erase s.references
      c' ∧ NoElse short c' := by
  rw [whileStatement] at h
  obtain ⟨opening, c₁, ro, k₁⟩ := bind_done h
  obtain ⟨ho, rfl⟩ := expect_done ro
  obtain ⟨condition, c₂, rc, k₂⟩ := bind_done k₁
  obtain ⟨close, c₃, rp, k₃⟩ := bind_done k₂
  obtain ⟨hp, rfl⟩ := expect_done rp
  obtain ⟨body, c₄, rb, k₄⟩ := bind_done k₃
  obtain ⟨rfl, rfl⟩ := pure_done k₄
  obtain ⟨hc₃, ⟨short, hb, helse⟩, hbr⟩ := ih.loopBody rb hc
  have hcond := ih.expression (n := n) rc hc₃
  exact ⟨short, ⟨hcond.clean, .whileStatement hk ho hcond.derives hp hb,
    hcond.numbered.append hbr⟩, helse⟩

theorem read_returnStatement {keyword : Token} {s : Stmt} (hk : keyword.isKeyword .return_)
    (h : returnStatement (fuel + 1) keyword c = .done s c') (hc : c'.Clean n) :
    Reads n (.statement false) { c with rest := keyword :: c.rest } s.erase s.references c' := by
  rw [returnStatement] at h
  obtain ⟨value, c₁, rv, k₁⟩ := bind_done h
  obtain ⟨semicolon, c₂, rs, k₂⟩ := bind_done k₁
  obtain ⟨hs, rfl⟩ := expect_done rs
  obtain ⟨rfl, rfl⟩ := pure_done k₂
  have hv := ih.optionalExpression (n := n) rv hc
  rw [erase_returning, references_returning]
  exact ⟨hv.clean, .returnStatement hk hv.derives hs, hv.numbered⟩

theorem read_blockStatement {opening : Token} {s : Stmt} (ho : opening.isSymbol .leftBrace)
    (h : blockStatement (fuel + 1) c = .done s c') (hc : c'.Clean n) :
    Reads n (.statement false) { c with rest := opening :: c.rest } s.erase s.references c' := by
  rw [blockStatement] at h
  obtain ⟨body, c₁, rb, k₁⟩ := bind_done h
  obtain ⟨rfl, rfl⟩ := pure_done k₁
  have hb := ih.block rb hc
  exact ⟨hb.clean, .blockStatement ho hb.derives, hb.numbered⟩

theorem read_printStatement {keyword : Token} {s : Stmt} (hk : keyword.isKeyword .print_)
    (h : printStatement (fuel + 1) c = .done s c') (hc : c'.Clean n) :
    Reads n (.statement false) { c with rest := keyword :: c.rest } s.erase s.references c' := by
  rw [printStatement] at h
  obtain ⟨e, c₁, re, k₁⟩ := bind_done h
  obtain ⟨semicolon, c₂, rs, k₂⟩ := bind_done k₁
  obtain ⟨hs, rfl⟩ := expect_done rs
  obtain ⟨rfl, rfl⟩ := pure_done k₂
  have he := ih.expression (n := n) re hc
  exact ⟨he.clean, .printStatement hk he.derives hs, he.numbered⟩

omit ih in
/-- A jump is read inside a loop only. -/
theorem read_jumpStatement {outside : SyntaxCause} {what : Expected} {node : Token → Stmt}
    {keyword : Token} {s : Stmt} (h : jumpStatement outside what node keyword c = .done s c')
    (hc : c'.Clean n) :
    0 < n ∧ s = node keyword ∧
      ∃ semicolon, semicolon.isSymbol .semicolon ∧ c = { c' with rest := semicolon :: c'.rest } := by
  unfold jumpStatement at h
  split at h
  · cases h
  · next hl =>
    obtain ⟨semicolon, c₁, rs, k₁⟩ := bind_done h
    obtain ⟨hs, rfl⟩ := expect_done rs
    obtain ⟨rfl, rfl⟩ := pure_done k₁
    have hn : c₁.loops = n := hc.2
    exact ⟨hn ▸ Nat.pos_of_ne_zero hl, rfl, semicolon, hs, rfl⟩

theorem read_statement {s : Stmt} (h : statement (fuel + 1) c = .done s c') (hc : c'.Clean n) :
    ∃ short, Reads n (.statement short) c s.erase s.references c' ∧ NoElse short c' := by
  have hexpr : ∀ {c}, expressionStatement fuel c = .done s c' →
      ∃ short, Reads n (.statement short) c s.erase s.references c' ∧ NoElse short c' := by
    intro c h
    obtain ⟨e, semicolon, rfl, hs, he⟩ := ih.expressionStatement h hc
    exact ⟨false, ⟨he.clean, .expressionStatement he.derives hs, he.numbered⟩, nofun⟩
  rw [statement] at h
  obtain ⟨_ | ⟨t, rest⟩, endLine, loops, faults, nextReference⟩ := c
  · exact hexpr h
  · dsimp only at h
    split at h
    · next hk => exact ih.forStatement (Token.isKeyword_iff.2 hk) h hc
    · next hk => exact ih.ifStatement (Token.isKeyword_iff.2 hk) h hc
    · next hk => exact ih.whileStatement (Token.isKeyword_iff.2 hk) h hc
    · next hk => exact ⟨false, ih.returnStatement (Token.isKeyword_iff.2 hk) h hc, nofun⟩
    · next hk =>
      obtain ⟨hn, rfl, semicolon, hs, heq⟩ := read_jumpStatement h hc
      cases heq
      refine ⟨false, ⟨hc, ?_, .none (Nat.le_refl _)⟩, nofun⟩
      rw [decide_eq_true hn]
      exact .breakStatement (Token.isKeyword_iff.2 hk) hs
    · next hk =>
      obtain ⟨hn, rfl, semicolon, hs, heq⟩ := read_jumpStatement h hc
      cases heq
      refine ⟨false, ⟨hc, ?_, .none (Nat.le_refl _)⟩, nofun⟩
      rw [decide_eq_true hn]
      exact .continueStatement (Token.isKeyword_iff.2 hk) hs
    · next hk => exact ⟨false, ih.blockStatement (Token.isSymbol_iff.2 hk) h hc, nofun⟩
    · next hk => exact ⟨false, ih.printStatement (Token.isKeyword_iff.2 hk) h hc, nofun⟩
    · exact hexpr h

end

/-- Every production reads phrases of its rule, with any amount of fuel. -/
theorem allRead (fuel : Nat) : AllRead fuel := by
  induction fuel with
  | zero => exact allRead_zero
  | succ fuel ih =>
    exact ⟨read_expression ih, read_ternary ih, read_binary ih, read_binaryRest ih, read_unary ih,
      read_callRest ih, read_arguments ih, read_argumentList ih, read_primary ih,
      read_functionTail ih, read_function ih, read_block ih, read_declarations ih,
      read_declaration ih, read_methods ih, read_varDeclaration ih, read_bindings ih,
      read_statement ih, read_loopBody ih, read_forStart ih, read_optionalExpression ih,
      read_expressionStatement ih, read_forStatement ih, read_ifStatement ih,
      read_whileStatement ih, read_returnStatement ih, read_blockStatement ih,
      read_printStatement ih⟩

end Production

end TreeWalk
