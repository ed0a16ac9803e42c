import TreeWalk.Proofs.Lookahead
import TreeWalk.Proofs.Reading

/-!
# Phrases are read

The converse of `Proofs.Reading`: where a phrase of a rule stands and nothing behind it continues it,
the production of the rule reads the phrase and stops behind it, if it has fuel for the tokens at
hand (`Derives.accepted`). The references of the tree depend on where the cursor stands, so trees are
compared after `erase`.
-/

namespace TreeWalk

/-- The cursor with other tokens to read and another next reference. -/
def Cursor.to (c : Cursor) (ts : List Token) (n : Nat) : Cursor :=
  { c with rest := ts, nextReference := n }

namespace Production

variable {α β : Type} {c : Cursor} {ts ts' rest : List Token}

/-- At the tokens `ts` the production succeeds, leaves `rest` and notes no fault, and `good` holds of
what it reads. -/
def Takes (p : Production α) (c : Cursor) (ts rest : List Token) (good : α → Prop) : Prop :=
  ∀ n, ∃ a n', p (c.to ts n) = .done a (c.to rest n') ∧ good a

/-! ### The parts -/

theorem takes_pure {a : α} {good : α → Prop} (h : good a) : Takes (pure a) c ts ts good :=
  fun n => ⟨a, n, rfl, h⟩

theorem takes_value (a : α) : Takes (pure a) c ts ts (· = a) :=
  takes_pure rfl

theorem Takes.bind {p : Production α} {f : α → Production β} {good : α → Prop} {good' : β → Prop}
    (hp : p.Takes c ts ts' good) (hf : ∀ a, good a → (f a).Takes c ts' rest good') :
    Takes (p >>= f) c ts rest good' := by
  intro n
  obtain ⟨a, n₁, ha, hgood⟩ := hp n
  obtain ⟨b, n₂, hb, hgood'⟩ := hf a hgood n₁
  refine ⟨b, n₂, ?_, hgood'⟩
  show Production.bind p f (c.to ts n) = _
  rw [Production.bind, ha]
  exact hb

theorem bind_assoc {γ : Type} (p : Production α) (f : α → Production β) (g : β → Production γ) :
    (p >>= f) >>= g = p >>= fun a => f a >>= g := by
  funext c
  show Production.bind (Production.bind p f) g c = Production.bind p _ c
  unfold Production.bind
  cases p c <;> rfl

theorem Takes.mono {p : Production α} {good good' : α → Prop} (hp : p.Takes c ts rest good)
    (h : ∀ a, good a → good' a) : p.Takes c ts rest good' := by
  intro n
  obtain ⟨a, n', ha, hgood⟩ := hp n
  exact ⟨a, n', ha, h a hgood⟩

/-- A production that looks at the first token itself and goes on as `q` does behind it. -/
theorem Takes.behind {p q : Production α} {good : α → Prop} {t : Token}
    (hq : q.Takes c ts rest good) (h : ∀ n, p (c.to (t :: ts) n) = q (c.to ts n)) :
    p.Takes c (t :: ts) rest good := by
  intro n
  rw [h n]
  exact hq n

theorem Takes.some {p : Production α} {good : α → Prop} (h : p.Takes c ts rest good) :
    Takes (some <$> p) c ts rest fun o => ∃ a, o = some a ∧ good a :=
  h.bind fun a ha => takes_pure ⟨a, rfl, ha⟩

theorem takes_accept {p : Token → Bool} {t : Token} (h : p t) :
    Takes (accept? p) c (t :: ts) ts (· = some t) :=
  fun n => ⟨some t, n, by simp [accept?, Cursor.to, h], rfl⟩

theorem takes_nothing {p : Token → Bool} (h : Stops p ts) :
    Takes (accept? p) c ts ts (· = none) := by
  intro n
  refine ⟨none, n, ?_, rfl⟩
  cases ts with
  | nil => rfl
  | cons t rest => simp [accept?, Cursor.to, h t rfl]

theorem takes_expect {p : Token → Bool} {what : Expected} {t : Token} (h : p t) :
    Takes (expect p what) c (t :: ts) ts (· = t) :=
  fun n => ⟨t, n, by simp [expect, Cursor.to, h], rfl⟩

theorem takes_check {p : Token → Bool} {t : Token} {b : Bool} (h : p t = b) :
    Takes (check p) c (t :: ts) (t :: ts) (· = b) :=
  fun n => ⟨p t, n, rfl, h⟩

theorem takes_freshReference : Takes freshReference c ts ts fun _ => True :=
  fun n => ⟨n, n + 1, rfl, trivial⟩

theorem takes_withLoops {p : Production α} {enter : Nat → Nat} {leave : Nat → Nat → Nat}
    {good : α → Prop} (hback : ∀ n, leave n (enter n) = n)
    (h : p.Takes { c with loops := enter c.loops } ts rest good) :
    Takes (withLoops enter leave p) c ts rest good := by
  intro n
  obtain ⟨a, n', ha, hgood⟩ := h n
  refine ⟨a, n', ?_, hgood⟩
  change p { c.to ts n with loops := enter (c.to ts n).loops } = _ at ha
  rw [withLoops, ha]
  simp only [Cursor.to, hback]

theorem takes_recovering {p : Production α} {good : α → Prop} (h : p.Takes c ts rest good) :
    Takes (recovering p) c ts rest fun o => ∃ a, o = some a ∧ good a := by
  intro n
  obtain ⟨a, n', ha, hgood⟩ := h n
  exact ⟨some a, n', by rw [recovering, ha], a, rfl, hgood⟩

end Production

/-! ### What it means to accept a phrase -/

/-- The levels of a rule are the tightest ones of all, and a closing symbol is one. -/
def Rule.Proper : Rule → Prop
  | .binary levels => levels <:+ Level.all
  | .operands level tighter => (level :: tighter) <:+ Level.all
  | .arguments closing | .optional closing => closesExpression closing
  | _ => True

namespace Production

/-- The production of the rule, with so much fuel, reads the tree from `ts` to `rest`. -/
def Accepts (fuel : Nat) (c : Cursor) (ts rest : List Token) : (rule : Rule) → rule.Tree → Prop
  | .expression, t => (expression fuel).Takes c ts rest fun e => e.erase = t
  | .ternary, t => (ternary fuel).Takes c ts rest fun e => e.erase = t
  | .binary levels, t => (binary fuel levels).Takes c ts rest fun e => e.erase = t
  | .operands level tighter, more => ∀ left, (binaryRest fuel level tighter left).Takes c ts rest
      fun e => e.erase = more.foldl level.attach left.erase
  | .unary, t => (unary fuel).Takes c ts rest fun e => e.erase = t
  | .call, t => (primary fuel >>= callRest fuel).Takes c ts rest fun e => e.erase = t
  | .suffixes, more => ∀ callee, (callRest fuel callee).Takes c ts rest
      fun e => e.erase = more.foldl Suffix.attach callee.erase
  | .primary, t => (primary fuel).Takes c ts rest fun e => e.erase = t
  | .arguments closing, t => ∀ what, (arguments fuel closing what).Takes c ts rest
      fun r => (eraseExprs r.1, r.2) = t
  | .argumentList allowed, t => (argumentList fuel allowed).Takes c ts rest
      fun es => eraseExprs es = t
  | .parameters allowed, t => (parameters allowed).Takes c ts rest fun names => names = t
  | .functionTail, t => ∀ kind name keyword, (functionTail fuel kind name keyword).Takes c ts rest
      fun f => f.erase = ⟨name, t.1, t.2, keyword⟩
  | .function, t => ∀ kind, (function fuel kind).Takes c ts rest fun f => f.erase = t
  | .block, t => (block fuel).Takes c ts rest fun ss => eraseStmts ss = t
  | .declarations, t => (declarations fuel).Takes c ts rest fun ss => eraseStmts ss = t
  | .declaration _, t => (declaration fuel).Takes c ts rest fun s => s.erase = t
  | .methods, t => (methods fuel).Takes c ts rest fun fs => eraseMethods fs = t
  | .varTail, t => (varDeclaration fuel).Takes c ts rest fun s => s.erase = t
  | .bindings, t => (bindings fuel).Takes c ts rest fun bs => eraseBindings bs = t
  | .forStart, t => (forStart fuel).Takes c ts rest fun s => s.map Stmt.erase = t
  | .optional closing, t => (optionalExpression fuel closing).Takes c ts rest
      fun e => e.map Expr.erase = t
  | .statement _, t => (statement fuel).Takes c ts rest fun s => s.erase = t

/-- The phrase is read wherever nothing continues it and there is fuel for its tokens. -/
def Accepted (rule : Rule) (l : Bool) (ts : List Token) (t : rule.Tree) (rest : List Token) : Prop :=
  rule.Proper → ∀ {fuel : Nat} {c : Cursor}, decide (0 < c.loops) = l → Stops rule.continuedBy rest →
    16 * ts.length + rule.rank ≤ fuel → Accepts fuel c ts rest rule t

/-- A production spends one unit of fuel itself. -/
theorem accepted_of {rule : Rule} {l : Bool} {ts rest : List Token} {t : rule.Tree}
    (h : rule.Proper → ∀ (fuel : Nat) (c : Cursor), decide (0 < c.loops) = l →
      Stops rule.continuedBy rest → 16 * ts.length + rule.rank ≤ fuel + 1 →
      Accepts (fuel + 1) c ts rest rule t) : Accepted rule l ts t rest := by
  intro hp fuel c hl hs hf
  cases fuel with
  | zero =>
    have hrank := rule.rank_pos
    omega
  | succ fuel => exact h hp fuel c hl hs hf

variable {l : Bool} {ts ts' rest : List Token} {e : Expr}

theorem proper_all : (Rule.binary Level.all).Proper :=
  List.suffix_refl _

/-- A level that is not the tightest is none of the tighter ones, which are at most five. -/
theorem proper_operands {level : Level} {tighter : List Level}
    (h : (Rule.operands level tighter).Proper) :
    (Rule.binary tighter).Proper ∧ level ∉ tighter ∧ tighter.length ≤ 5 := by
  have hs : (level :: tighter) <:+ Level.all := h
  have hnodup : (level :: tighter).Nodup := .sublist hs.sublist (by decide)
  refine ⟨(List.suffix_cons level tighter).trans hs, (List.nodup_cons.1 hnodup).1, ?_⟩
  exact Nat.le_of_succ_le_succ hs.length_le

/-! ### Expressions -/

theorem accepted_simple (h : Accepted .ternary l ts e rest) : Accepted .expression l ts e rest := by
  refine accepted_of fun _ fuel c hl hs hf => ?_
  obtain ⟨hternary, hequal⟩ : Stops continuesTernary rest ∧ Stops (Token.isSymbol .equal) rest :=
    hs.or
  show (expression _).Takes c _ _ _
  rw [expression]
  refine (h trivial hl hternary (Nat.le_of_succ_le_succ hf)).bind fun target htarget => ?_
  refine (takes_nothing hequal).bind ?_
  rintro _ rfl
  exact takes_pure htarget

theorem accepted_noChoice (h : Accepted (.binary Level.all) l ts e rest) :
    Accepted .ternary l ts e rest := by
  refine accepted_of fun _ fuel c hl hs hf => ?_
  obtain ⟨hbinary, hquestion⟩ : Stops (continuesBinary Level.all) rest ∧
    Stops (Token.isSymbol .question) rest := hs.or
  show (ternary _).Takes c _ _ _
  rw [ternary]
  refine (h proper_all hl hbinary (Nat.le_of_succ_le_succ hf)).bind fun condition hcondition => ?_
  refine (takes_nothing hquestion).bind ?_
  rintro _ rfl
  exact takes_pure hcondition

theorem accepted_choice {condition whenTrue whenFalse : Expr} {question colon : Token}
    {ts₁ ts₂ : List Token} (hlen₁ : ts₁.length < ts.length) (hlen₂ : ts₂.length < ts₁.length)
    (hq : question.isSymbol .question) (hc : colon.isSymbol .colon)
    (ihc : Accepted (.binary Level.all) l ts condition (question :: ts₁))
    (iht : Accepted .ternary l ts₁ whenTrue (colon :: ts₂))
    (ihf : Accepted .ternary l ts₂ whenFalse rest) :
    Accepted .ternary l ts (.ternary condition whenTrue whenFalse) rest := by
  refine accepted_of fun _ fuel c hl hs hf => ?_
  show (ternary _).Takes c _ _ _
  rw [ternary]
  refine (ihc proper_all hl (stops_question hq) (Nat.le_of_succ_le_succ hf)).bind ?_
  rintro e₁ rfl
  refine (takes_accept hq).bind ?_
  rintro _ rfl
  refine (iht trivial hl (stops_closed hc rfl).or.1 (by simp only [Rule.rank] at *; omega)).bind ?_
  rintro e₂ rfl
  refine (takes_expect hc).bind fun _ _ => ?_
  refine (ihf trivial hl hs (by simp only [Rule.rank] at *; omega)).bind ?_
  rintro e₃ rfl
  exact takes_pure (by simp only [Expr.erase])

theorem accepted_tightest (h : Accepted .unary l ts e rest) : Accepted (.binary []) l ts e rest := by
  refine accepted_of fun _ fuel c hl hs hf => ?_
  show (binary _ _).Takes c _ _ _
  rw [binary]
  exact h trivial hl hs.or.1 (Nat.le_of_succ_le_succ hf)

theorem accepted_level {level : Level} {tighter : List Level} {more : List (Token × Expr)}
    (hlen : ts'.length < ts.length) (dm : Derives (.operands level tighter) l ts' more rest)
    (ihf : Accepted (.binary tighter) l ts e ts')
    (ihm : Accepted (.operands level tighter) l ts' more rest) :
    Accepted (.binary (level :: tighter)) l ts (more.foldl level.attach e) rest := by
  refine accepted_of fun hp fuel c hl hs hf => ?_
  obtain ⟨htighter, hlevel, -⟩ := proper_operands hp
  show (binary _ _).Takes c _ _ _
  rw [binary]
  refine (ihf htighter hl (dm.stops_of_operands hlevel hs) (Nat.le_of_succ_le_succ hf)).bind ?_
  rintro left rfl
  exact ihm hp hl hs (by simp only [Rule.rank] at *; omega) left

theorem accepted_noOperand {level : Level} {tighter : List Level} :
    Accepted (.operands level tighter) l rest [] rest := by
  refine accepted_of fun _ fuel c hl hs hf left => ?_
  rw [binaryRest]
  have hoperator : Stops level.hasOperator rest :=
    hs.mono fun t ht => by simp [Rule.continuedBy, continuesBinary, ht]
  refine (takes_nothing hoperator).bind ?_
  rintro _ rfl
  exact takes_pure rfl

theorem accepted_operand {level : Level} {tighter : List Level} {operator : Token} {right : Expr}
    {more : List (Token × Expr)} (hlen : ts'.length < ts.length) (ho : level.hasOperator operator)
    (dm : Derives (.operands level tighter) l ts' more rest)
    (ihr : Accepted (.binary tighter) l ts right ts')
    (ihm : Accepted (.operands level tighter) l ts' more rest) :
    Accepted (.operands level tighter) l (operator :: ts) ((operator, right) :: more) rest := by
  refine accepted_of fun hp fuel c hl hs hf left => ?_
  obtain ⟨htighter, hlevel, hcount⟩ := proper_operands hp
  rw [binaryRest]
  simp only [Rule.rank, List.length_cons] at hf
  refine (takes_accept ho).bind ?_
  rintro _ rfl
  refine (ihr htighter hl (dm.stops_of_operands hlevel hs) (by simp only [Rule.rank]; omega)).bind ?_
  rintro e rfl
  refine (ihm hp hl hs (by simp only [Rule.rank]; omega) _).mono fun e' he' => ?_
  rw [he', erase_node]
  rfl

theorem accepted_before {operator : Token} (ho : isPrefixOperator operator)
    (ih : Accepted .unary l ts e rest) :
    Accepted .unary l (operator :: ts) (.unary operator e .before) rest := by
  refine accepted_of fun _ fuel c hl hs hf => ?_
  simp only [Rule.rank, List.length_cons] at hf
  show (unary _).Takes c _ _ _
  rw [unary]
  refine (takes_accept ho).bind ?_
  rintro _ rfl
  refine (ih trivial hl hs (by simp only [Rule.rank]; omega)).bind ?_
  rintro operand rfl
  exact takes_pure (by simp only [Expr.erase])

/-- A production that reads an operand tries the operators before it first. -/
theorem accepted_unary {f : Expr → Production Expr} {good : Expr → Prop} {fuel : Nat} {c : Cursor}
    (d : Derives .call l ts e ts') (h : Accepts fuel c ts ts' .call e)
    (hf : ∀ operand, operand.erase = e → (f operand).Takes c ts' rest good) :
    Takes (do
      match ← accept? isPrefixOperator with
      | some operator =>
        let operand ← unary fuel
        return .unary operator operand .before
      | none =>
        let operand ← primary fuel
        let operand ← callRest fuel operand
        f operand) c ts rest good := by
  obtain ⟨t, rest, rfl, ht, -⟩ := d.starts
  refine (takes_nothing (stops_cons (isPrefixOperator_of_startsOperand ht))).bind ?_
  rintro _ rfl
  show Takes (primary fuel >>= fun operand => callRest fuel operand >>= f) _ _ _ _
  rw [← bind_assoc]
  exact Takes.bind h hf

theorem accepted_after {operator : Token} (d : Derives .call l ts e (operator :: rest))
    (ho : isPostfixOperator operator) (ih : Accepted .call l ts e (operator :: rest)) :
    Accepted .unary l ts (.unary operator e .after) rest := by
  refine accepted_of fun _ fuel c hl hs hf => ?_
  show (unary _).Takes c _ _ _
  rw [unary]
  refine accepted_unary d (ih trivial hl (stops_postfixOperator ho) (by simp only [Rule.rank] at *; omega)) ?_
  rintro operand rfl
  refine (takes_accept ho).bind ?_
  rintro _ rfl
  exact takes_pure (by simp only [Expr.erase])

theorem accepted_bare (d : Derives .call l ts e rest) (ih : Accepted .call l ts e rest) :
    Accepted .unary l ts e rest := by
  refine accepted_of fun _ fuel c hl hs hf => ?_
  obtain ⟨hcall, hpostfix⟩ : Stops continuesCall rest ∧ Stops isPostfixOperator rest := hs.or
  show (unary _).Takes c _ _ _
  rw [unary]
  refine accepted_unary d (ih trivial hl hcall (by simp only [Rule.rank] at *; omega)) ?_
  rintro operand rfl
  refine (takes_nothing hpostfix).bind ?_
  rintro _ rfl
  exact takes_pure rfl

theorem accepted_call {more : List Suffix} (hlen : ts'.length < ts.length)
    (ihp : Accepted .primary l ts e ts') (ihm : Accepted .suffixes l ts' more rest) :
    Accepted .call l ts (more.foldl Suffix.attach e) rest := by
  refine accepted_of fun _ fuel c hl hs hf => ?_
  refine (ihp trivial hl (stops_false _) hf).bind ?_
  rintro operand rfl
  exact ihm trivial hl hs (by simp only [Rule.rank] at *; omega) operand

theorem accepted_noSuffix : Accepted .suffixes l rest [] rest := by
  refine accepted_of fun _ fuel c hl hs hf callee => ?_
  obtain ⟨hopen, hdot⟩ : Stops (fun t => t.isSymbol .leftParen || t.isSymbol .leftBracket) rest ∧
    Stops (Token.isSymbol .dot) rest := hs.or
  rw [callRest]
  refine (takes_nothing hopen.or.1).bind ?_
  rintro _ rfl
  refine (takes_nothing hopen.or.2).bind ?_
  rintro _ rfl
  refine (takes_nothing hdot).bind ?_
  rintro _ rfl
  exact takes_pure rfl

theorem accepted_callSuffix {opening paren : Token} {values : List Expr} {more : List Suffix}
    (hlen : ts'.length < ts.length) (ho : opening.isSymbol .leftParen)
    (iha : Accepted (.arguments .rightParen) l ts (values, paren) ts')
    (ihm : Accepted .suffixes l ts' more rest) :
    Accepted .suffixes l (opening :: ts) (.call paren values :: more) rest := by
  refine accepted_of fun _ fuel c hl hs hf callee => ?_
  simp only [Rule.rank, List.length_cons] at hf
  rw [callRest]
  refine (takes_accept ho).bind ?_
  rintro _ rfl
  refine (iha rfl hl (stops_false _) (by simp only [Rule.rank]; omega) _).bind ?_
  rintro ⟨es, close⟩ hes
  obtain ⟨rfl, rfl⟩ := Prod.mk.inj hes
  refine (ihm trivial hl hs (by simp only [Rule.rank]; omega) _).mono fun e' he' => ?_
  rw [he', Expr.erase]
  rfl

theorem accepted_indexSuffix {bracket close : Token} {position : Expr} {more : List Suffix}
    (hlen : ts'.length < ts.length) (hb : bracket.isSymbol .leftBracket)
    (hc : close.isSymbol .rightBracket) (ihp : Accepted .expression l ts position (close :: ts'))
    (ihm : Accepted .suffixes l ts' more rest) :
    Accepted .suffixes l (bracket :: ts) (.index bracket position :: more) rest := by
  refine accepted_of fun _ fuel c hl hs hf callee => ?_
  simp only [Rule.rank, List.length_cons] at hf
  rw [callRest]
  refine (takes_nothing (stops_cons (Token.isSymbol_ne hb (by decide)))).bind ?_
  rintro _ rfl
  refine (takes_accept hb).bind ?_
  rintro _ rfl
  refine (ihp trivial hl (stops_closed hc rfl) (by simp only [Rule.rank]; omega)).bind ?_
  rintro e rfl
  refine (takes_expect hc).bind fun _ _ => ?_
  refine (ihm trivial hl hs (by simp only [Rule.rank]; omega) _).mono fun e' he' => ?_
  rw [he', Expr.erase]
  rfl

theorem accepted_getSuffix {dot name : Token} {more : List Suffix} (hd : dot.isSymbol .dot)
    (hn : name.isIdentifier) (ihm : Accepted .suffixes l ts more rest) :
    Accepted .suffixes l (dot :: name :: ts) (.get name :: more) rest := by
  refine accepted_of fun _ fuel c hl hs hf callee => ?_
  simp only [Rule.rank, List.length_cons] at hf
  rw [callRest]
  refine (takes_nothing (stops_cons (Token.isSymbol_ne hd (by decide)))).bind ?_
  rintro _ rfl
  refine (takes_nothing (stops_cons (Token.isSymbol_ne hd (by decide)))).bind ?_
  rintro _ rfl
  refine (takes_accept hd).bind ?_
  rintro _ rfl
  refine (takes_expect hn).bind ?_
  rintro _ rfl
  refine (ihm trivial hl hs (by simp only [Rule.rank]; omega) _).mono fun e' he' => ?_
  rw [he', Expr.erase]
  rfl

/-! ### Assignments

The target is read as any other expression, up to the sign of equality. -/

theorem accepted_binary_of_call (d : Derives .call l ts e rest) (h : Accepted .call l ts e rest)
    (levels : List Level) : Accepted (.binary levels) l ts e rest := by
  induction levels with
  | nil => exact accepted_tightest (accepted_bare d h)
  | cons level tighter ih =>
    exact accepted_level (d.length_lt rfl) .noOperand ih accepted_noOperand

theorem erase_eq_variable {name : Token} (h : e.erase = .variable 0 name) :
    ∃ reference, e = .variable reference name := by
  cases e <;> simp only [Expr.erase, Expr.variable.injEq, reduceCtorEq] at h
  exact ⟨_, by rw [h.2]⟩

theorem erase_eq_get {object : Expr} {name : Token} (h : e.erase = .get object name) :
    ∃ object', e = .get object' name ∧ object'.erase = object := by
  cases e <;> simp only [Expr.erase, Expr.get.injEq, reduceCtorEq] at h
  exact ⟨_, by rw [h.2], h.1⟩

theorem accepted_set {object value : Expr} {name equals : Token}
    (d : Derives .call l ts (.get object name) (equals :: ts')) (he : equals.isSymbol .equal)
    (iht : Accepted .call l ts (.get object name) (equals :: ts'))
    (ihv : Accepted .expression l ts' value rest) :
    Accepted .expression l ts (.set object name value) rest := by
  refine accepted_of fun _ fuel c hl hs hf => ?_
  have hlen := d.length_lt rfl
  have ht := accepted_noChoice (accepted_binary_of_call d iht Level.all)
  simp only [Rule.rank, List.length_cons] at hf hlen
  show (expression _).Takes c _ _ _
  rw [expression]
  refine (ht trivial hl (stops_equal he) (by simp only [Rule.rank]; omega)).bind fun target htarget => ?_
  obtain ⟨object', rfl, rfl⟩ := erase_eq_get htarget
  refine (takes_accept he).bind ?_
  rintro _ rfl
  refine (ihv trivial hl hs (by simp only [Rule.rank]; omega)).bind ?_
  rintro e rfl
  exact takes_pure (by simp only [Expr.erase])

theorem accepted_name {name : Token} (hn : name.isIdentifier) :
    Accepted .primary l (name :: rest) (.variable 0 name) rest := by
  refine accepted_of fun _ fuel c hl hs hf => ?_
  have hkind := Token.isIdentifier_iff.1 hn
  refine Takes.behind (q := do return .variable (← freshReference) name) ?_ fun n => by
    simp only [primary, Cursor.to, hkind]
  exact takes_freshReference.bind fun reference _ => takes_pure (by simp only [Expr.erase])

theorem accepted_assign {name equals : Token} {value : Expr} (hn : name.isIdentifier)
    (he : equals.isSymbol .equal) (ihv : Accepted .expression l ts value rest) :
    Accepted .expression l (name :: equals :: ts) (.assign 0 name value) rest := by
  refine accepted_of fun _ fuel c hl hs hf => ?_
  have d : Derives .call l (name :: equals :: ts) (.variable 0 name) (equals :: ts) :=
    .call (.name hn) .noSuffix
  have hsuffix : Accepted .suffixes l (equals :: ts) [] (equals :: ts) := accepted_noSuffix
  have h : Accepted .call l (name :: equals :: ts) (.variable 0 name) (equals :: ts) :=
    accepted_call (Nat.lt_succ_self _) (accepted_name hn) hsuffix
  have ht := accepted_noChoice (accepted_binary_of_call d h Level.all)
  simp only [Rule.rank, List.length_cons] at hf
  show (expression _).Takes c _ _ _
  rw [expression]
  refine (ht trivial hl (stops_equal he) (by simp only [Rule.rank, List.length_cons]; omega)).bind
    fun target htarget => ?_
  obtain ⟨reference, rfl⟩ := erase_eq_variable htarget
  refine (takes_accept he).bind ?_
  rintro _ rfl
  refine (ihv trivial hl hs (by simp only [Rule.rank]; omega)).bind ?_
  rintro e rfl
  exact takes_freshReference.bind fun reference _ => takes_pure (by simp only [Expr.erase])

/-! ### Operands -/

/-- A token that stands for a constant. -/
theorem accepted_literal {t : Token} {value : Literal}
    (h : ∀ fuel c n, primary (fuel + 1) (Cursor.to c (t :: rest) n) =
      .done (.literal value) (c.to rest n)) :
    Accepted .primary l (t :: rest) (.literal value) rest :=
  accepted_of fun _ fuel c _ _ _ n =>
    ⟨_, n, h fuel c n, by simp only [Expr.erase]⟩

theorem accepted_this {t : Token} (h : t.isKeyword .this_) :
    Accepted .primary l (t :: rest) (.this 0 t) rest := by
  refine accepted_of fun _ fuel c hl hs hf => ?_
  have hkind := Token.isKeyword_iff.1 h
  refine Takes.behind (q := do return .this (← freshReference) t) ?_ fun n => by
    simp only [primary, Cursor.to, hkind]
  exact takes_freshReference.bind fun reference _ => takes_pure (by simp only [Expr.erase])

theorem accepted_group {opening close : Token} (ho : opening.isSymbol .leftParen)
    (hc : close.isSymbol .rightParen) (ih : Accepted .expression l ts e (close :: rest)) :
    Accepted .primary l (opening :: ts) (.group e) rest := by
  refine accepted_of fun _ fuel c hl hs hf => ?_
  simp only [Rule.rank, List.length_cons] at hf
  have hkind := Token.isSymbol_iff.1 ho
  refine Takes.behind (q := do
    let inner ← expression fuel
    let _ ← symbol .rightParen .closeGroup
    return .group inner) ?_ fun n => by simp only [primary, Cursor.to, hkind]
  refine (ih trivial hl (stops_closed hc rfl) (by simp only [Rule.rank]; omega)).bind ?_
  rintro inner rfl
  exact (takes_expect hc).bind fun _ _ => takes_pure (by simp only [Expr.erase])

theorem accepted_array {bracket close : Token} {elements : List Expr}
    (hb : bracket.isSymbol .leftBracket)
    (ih : Accepted (.arguments .rightBracket) l ts (elements, close) rest) :
    Accepted .primary l (bracket :: ts) (.array bracket elements) rest := by
  refine accepted_of fun _ fuel c hl hs hf => ?_
  simp only [Rule.rank, List.length_cons] at hf
  have hkind := Token.isSymbol_iff.1 hb
  refine Takes.behind (q := do
    return .array bracket (← arguments fuel .rightBracket .closeArray).1) ?_ fun n => by
      simp only [primary, Cursor.to, hkind]
  refine (ih rfl hl (stops_false _) (by simp only [Rule.rank]; omega) _).bind ?_
  rintro ⟨es, t⟩ hes
  obtain ⟨rfl, rfl⟩ := Prod.mk.inj hes
  exact takes_pure (by simp only [Expr.erase])

theorem accepted_lambda {keyword opening : Token} {names : List Token} {body : List Stmt}
    (hk : keyword.isKeyword .fun_) (ho : opening.isSymbol .leftParen)
    (ih : Accepted .functionTail l ts (names, body) rest) :
    Accepted .primary l (keyword :: opening :: ts) (.lambda ⟨none, names, body, keyword⟩) rest := by
  refine accepted_of fun _ fuel c hl hs hf => ?_
  simp only [Rule.rank, List.length_cons] at hf
  have hkind := Token.isKeyword_iff.1 hk
  refine Takes.behind (q := do
    let _ ← symbol .leftParen .parenAfterFun
    return .lambda (← functionTail fuel .function none keyword)) ?_ fun n => by
      simp only [primary, Cursor.to, hkind]
  refine (takes_expect ho).bind fun _ _ => ?_
  refine (ih trivial hl (stops_false _) (by simp only [Rule.rank]; omega) _ _ _).bind fun f hf => ?_
  exact takes_pure (by simp only [Expr.erase, hf])

theorem accepted_noArguments {closing : Symbol} {close : Token} (hc : close.isSymbol closing) :
    Accepted (.arguments closing) l (close :: rest) ([], close) rest := by
  refine accepted_of fun _ fuel c hl hs hf what => ?_
  rw [arguments]
  refine (takes_check hc).bind ?_
  rintro _ rfl
  refine (takes_value []).bind ?_
  rintro _ rfl
  refine (takes_expect hc).bind ?_
  rintro _ rfl
  exact takes_pure (by simp only [eraseExprs])

theorem accepted_someArguments {closing : Symbol} {close : Token} {values : List Expr}
    (d : Derives (.argumentList maxArguments) l ts values (close :: rest))
    (hc : close.isSymbol closing)
    (ih : Accepted (.argumentList maxArguments) l ts values (close :: rest)) :
    Accepted (.arguments closing) l ts (values, close) rest := by
  refine accepted_of fun hp fuel c hl hs hf what => ?_
  obtain ⟨t, more, rfl, ht, -⟩ := d.starts
  rw [arguments]
  refine (takes_check (startsExpression_not_closed ht hp)).bind ?_
  rintro _ rfl
  refine (ih trivial hl (stops_closedList hc hp) (Nat.le_of_succ_le_succ hf)).bind ?_
  rintro es rfl
  refine (takes_expect hc).bind ?_
  rintro _ rfl
  exact takes_pure rfl

theorem accepted_lastArgument {allowed : Nat} (ih : Accepted .expression l ts e rest) :
    Accepted (.argumentList (allowed + 1)) l ts [e] rest := by
  refine accepted_of fun _ fuel c hl hs hf => ?_
  obtain ⟨hexpression, hcomma⟩ : Stops continuesExpression rest ∧
    Stops (Token.isSymbol .comma) rest := hs.or
  show (argumentList _ _).Takes c _ _ _
  rw [argumentList]
  refine (ih trivial hl hexpression (Nat.le_of_succ_le_succ hf)).bind ?_
  rintro value rfl
  refine (takes_nothing hcomma).bind ?_
  rintro _ rfl
  exact takes_pure (by simp only [eraseExprs])

theorem accepted_nextArgument {allowed : Nat} {comma : Token} {es : List Expr}
    (hlen : ts'.length < ts.length) (hc : comma.isSymbol .comma)
    (ih : Accepted .expression l ts e (comma :: ts'))
    (ihm : Accepted (.argumentList allowed) l ts' es rest) :
    Accepted (.argumentList (allowed + 1)) l ts (e :: es) rest := by
  refine accepted_of fun _ fuel c hl hs hf => ?_
  show (argumentList _ _).Takes c _ _ _
  rw [argumentList]
  refine (ih trivial hl (stops_comma hc) (Nat.le_of_succ_le_succ hf)).bind ?_
  rintro value rfl
  refine (takes_accept hc).bind ?_
  rintro _ rfl
  refine (ihm trivial hl hs (by simp only [Rule.rank] at *; omega)).bind ?_
  rintro values rfl
  exact takes_pure (by simp only [eraseExprs])

/-! ### Functions -/

theorem accepted_lastParameter {allowed : Nat} {name : Token} (hn : name.isIdentifier) :
    Accepted (.parameters (allowed + 1)) l (name :: rest) [name] rest := by
  refine accepted_of fun _ fuel c hl hs hf => ?_
  show (parameters _).Takes c _ _ _
  rw [parameters]
  refine (takes_expect hn).bind ?_
  rintro _ rfl
  refine (takes_nothing hs).bind ?_
  rintro _ rfl
  exact takes_pure rfl

theorem accepted_nextParameter {allowed : Nat} {name comma : Token} {names : List Token}
    (hn : name.isIdentifier) (hc : comma.isSymbol .comma)
    (ihm : Accepted (.parameters allowed) l ts names rest) :
    Accepted (.parameters (allowed + 1)) l (name :: comma :: ts) (name :: names) rest := by
  refine accepted_of fun _ fuel c hl hs hf => ?_
  simp only [Rule.rank, List.length_cons] at hf
  show (parameters _).Takes c _ _ _
  rw [parameters]
  refine (takes_expect hn).bind ?_
  rintro _ rfl
  refine (takes_accept hc).bind ?_
  rintro _ rfl
  have hm : Accepts fuel c ts rest (.parameters allowed) names :=
    ihm trivial hl hs (by simp only [Rule.rank]; omega)
  refine hm.bind ?_
  rintro _ rfl
  exact takes_pure rfl

/-- Behind the parameters. A body is read outside of all loops. -/
theorem takes_body {fuel : Nat} {c : Cursor} {kind : FunctionKind} {name : Option Token}
    {keyword close opening : Token} {names : List Token} {body : List Stmt}
    (hc : close.isSymbol .rightParen) (ho : opening.isSymbol .leftBrace)
    (hfuel : 16 * ts.length + Rule.block.rank ≤ fuel) (ih : Accepted .block false ts body rest) :
    Takes (do
      let _ ← symbol .rightParen .closeParameters
      let _ ← symbol .leftBrace (.openFunctionBody kind)
      let body ← withLoops (fun _ => 0) (fun before _ => before) (block fuel)
      return ⟨name, names, body, keyword⟩) c (close :: opening :: ts) rest fun f =>
        FunctionDecl.erase f = ⟨name, names, body, keyword⟩ := by
  refine (takes_expect hc).bind fun _ _ => (takes_expect ho).bind fun _ _ => ?_
  refine (takes_withLoops (fun _ => rfl) (ih trivial rfl (stops_false _) hfuel)).bind ?_
  rintro stmts rfl
  exact takes_pure (by simp only [FunctionDecl.erase])

theorem accepted_noParameters {close opening : Token} {body : List Stmt}
    (hc : close.isSymbol .rightParen) (ho : opening.isSymbol .leftBrace)
    (ih : Accepted .block false ts body rest) :
    Accepted .functionTail l (close :: opening :: ts) ([], body) rest := by
  refine accepted_of fun _ fuel c hl hs hf kind name keyword => ?_
  simp only [Rule.rank, List.length_cons] at hf
  rw [functionTail]
  refine (takes_check hc).bind ?_
  rintro _ rfl
  refine (takes_value []).bind ?_
  rintro _ rfl
  exact takes_body hc ho (by simp only [Rule.rank]; omega) ih

theorem accepted_someParameters {close opening : Token} {names : List Token} {body : List Stmt}
    (d : Derives (.parameters maxArguments) l ts names (close :: opening :: ts'))
    (hc : close.isSymbol .rightParen) (ho : opening.isSymbol .leftBrace)
    (ihp : Accepted (.parameters maxArguments) l ts names (close :: opening :: ts'))
    (ihb : Accepted .block false ts' body rest) :
    Accepted .functionTail l ts (names, body) rest := by
  refine accepted_of fun _ fuel c hl hs hf kind name keyword => ?_
  have hlen := d.length_lt rfl
  simp only [Rule.rank, List.length_cons] at hf hlen
  have hp : Accepts (fuel + 1) c ts (close :: opening :: ts') (.parameters maxArguments) names :=
    ihp trivial hl (stops_cons (Token.isSymbol_ne hc (by decide))) hf
  obtain ⟨first, more, rfl, hfirst⟩ : ∃ t more, ts = t :: more ∧ t.isIdentifier := by
    cases d with
    | lastParameter hn => exact ⟨_, _, rfl, hn⟩
    | nextParameter hn => exact ⟨_, _, rfl, hn⟩
  have hopen : first.isSymbol .rightParen = false := by
    simp [Token.isSymbol, Token.isIdentifier_iff.1 hfirst]
  rw [functionTail]
  refine (takes_check hopen).bind ?_
  rintro _ rfl
  refine hp.bind ?_
  rintro _ rfl
  exact takes_body hc ho (by simp only [Rule.rank]; omega) ihb

theorem accepted_function {name opening : Token} {names : List Token} {body : List Stmt}
    (hn : name.isIdentifier) (ho : opening.isSymbol .leftParen)
    (ih : Accepted .functionTail l ts (names, body) rest) :
    Accepted .function l (name :: opening :: ts) ⟨some name, names, body, name⟩ rest := by
  refine accepted_of fun _ fuel c hl hs hf kind => ?_
  simp only [Rule.rank, List.length_cons] at hf
  rw [function]
  refine (takes_expect hn).bind ?_
  rintro _ rfl
  refine (takes_expect ho).bind fun _ _ => ?_
  exact ih trivial hl (stops_false _) (by simp only [Rule.rank]; omega) _ _ _

/-! ### Declarations -/

theorem takes_endsBlock {c : Cursor} (h : Stops (fun t => !t.isSymbol .rightBrace) ts) :
    Takes endsBlock c ts ts (· = true) := by
  intro n
  refine ⟨true, n, ?_, rfl⟩
  cases ts with
  | nil => rfl
  | cons t rest =>
    have ht : t.isSymbol .rightBrace = true := by simpa using h t rfl
    simp [endsBlock, Cursor.to, Cursor.sees, ht]

theorem takes_endsBlock_false {c : Cursor} {t : Token} (h : t.isSymbol .rightBrace = false) :
    Takes endsBlock c (t :: ts) (t :: ts) (· = false) :=
  fun n => ⟨false, n, by simp [endsBlock, Cursor.to, Cursor.sees, h], rfl⟩

theorem takes_startsFunction {c : Cursor} {t name : Token} (ht : t.isKeyword .fun_)
    (hn : name.isIdentifier) :
    Takes startsFunction c (t :: name :: ts) (t :: name :: ts) (· = true) :=
  fun n => ⟨true, n, by simp [startsFunction, Cursor.to, Cursor.sees, Cursor.seesSecond, ht, hn], rfl⟩

/-- A lambda is no declaration. -/
theorem takes_startsFunction_false {c : Cursor} {t : Token}
    (h : t.isKeyword .fun_ → ∃ paren more, ts = paren :: more ∧ paren.isSymbol .leftParen) :
    Takes startsFunction c (t :: ts) (t :: ts) (· = false) := by
  intro n
  refine ⟨false, n, ?_, rfl⟩
  by_cases ht : t.isKeyword .fun_
  · obtain ⟨paren, more, rfl, hp⟩ := h ht
    have hn : paren.isIdentifier = false := by
      simp [Token.isIdentifier, Token.isSymbol_iff.1 hp]
    simp [startsFunction, Cursor.to, Cursor.sees, Cursor.seesSecond, hn]
  · simp [startsFunction, Cursor.to, Cursor.sees, ht]

theorem accepted_block {body : List Stmt} {close : Token} (hc : close.isSymbol .rightBrace)
    (ih : Accepted .declarations l ts body (close :: rest)) : Accepted .block l ts body rest := by
  refine accepted_of fun _ fuel c hl hs hf => ?_
  show (block _).Takes c _ _ _
  rw [block]
  refine (ih trivial hl (stops_cons (by simp [Rule.continuedBy, hc])) (Nat.le_of_succ_le_succ hf)).bind ?_
  rintro stmts rfl
  exact (takes_expect hc).bind fun _ _ => takes_pure rfl

theorem accepted_noDeclaration : Accepted .declarations l rest [] rest := by
  refine accepted_of fun _ fuel c hl hs hf => ?_
  show (declarations _).Takes c _ _ _
  rw [declarations]
  refine (takes_endsBlock hs).bind ?_
  rintro _ rfl
  exact takes_pure (by simp only [eraseStmts])

theorem accepted_nextDeclaration {short : Bool} {s : Stmt} {ss : List Stmt}
    (d : Derives (.declaration short) l ts s ts') (dm : Derives .declarations l ts' ss rest)
    (ih : Accepted (.declaration short) l ts s ts') (ihm : Accepted .declarations l ts' ss rest) :
    Accepted .declarations l ts (s :: ss) rest := by
  refine accepted_of fun _ fuel c hl hs hf => ?_
  have hlen := d.length_lt rfl
  obtain ⟨t, more, rfl, ht⟩ := d.starts
  simp only [Rule.rank] at hf
  show (declarations _).Takes c _ _ _
  rw [declarations]
  refine (takes_endsBlock_false (startsDeclaration_not_brace ht)).bind ?_
  rintro _ rfl
  have hs' : Stops (Rule.declaration short).continuedBy ts' :=
    (dm.stops_of_declarations (Stops.noElse hs)).continuesDeclaration short
  refine (takes_recovering (ih trivial hl hs' (Nat.le_of_succ_le_succ hf))).bind ?_
  rintro _ ⟨first, rfl, rfl⟩
  refine (ihm trivial hl hs (by simp only [Rule.rank]; omega)).bind ?_
  rintro stmts rfl
  exact takes_pure (by simp only [eraseStmts])

theorem accepted_classDecl {keyword name opening close : Token} {methods : List FunctionDecl}
    (hk : keyword.isKeyword .class_) (hn : name.isIdentifier) (ho : opening.isSymbol .leftBrace)
    (hc : close.isSymbol .rightBrace) (ihm : Accepted .methods l ts methods (close :: rest)) :
    Accepted (.declaration false) l (keyword :: name :: opening :: ts) (.classDecl name methods)
      rest := by
  refine accepted_of fun _ fuel c hl hs hf => ?_
  simp only [Rule.rank, List.length_cons] at hf
  show (declaration _).Takes c _ _ _
  rw [declaration]
  refine (takes_accept hk).bind ?_
  rintro _ rfl
  refine (takes_expect hn).bind ?_
  rintro _ rfl
  refine (takes_expect ho).bind fun _ _ => ?_
  refine (ihm trivial hl (stops_cons (by simp [Rule.continuedBy, hc])) (by simp only [Rule.rank]; omega)).bind ?_
  rintro members rfl
  exact (takes_expect hc).bind fun _ _ => takes_pure (by simp only [Stmt.erase])

theorem accepted_functionDecl {keyword : Token} {decl : FunctionDecl} (hk : keyword.isKeyword .fun_)
    (d : Derives .function l ts decl rest) (ih : Accepted .function l ts decl rest) :
    Accepted (.declaration false) l (keyword :: ts) (.function decl) rest := by
  refine accepted_of fun _ fuel c hl hs hf => ?_
  obtain ⟨name, more, rfl, hn⟩ := d.starts
  simp only [Rule.rank, List.length_cons] at hf
  show (declaration _).Takes c _ _ _
  rw [declaration]
  refine (takes_nothing (stops_cons (Token.isKeyword_ne hk (by decide)))).bind ?_
  rintro _ rfl
  refine (takes_startsFunction hk hn).bind ?_
  rintro _ rfl
  refine (takes_accept hk).bind fun _ _ => ?_
  refine (ih trivial hl (stops_false _) (by simp only [Rule.rank, List.length_cons]; omega) _).bind ?_
  rintro f rfl
  exact takes_pure (by simp only [Stmt.erase])

theorem accepted_varDecl {keyword : Token} {s : Stmt} (hk : keyword.isKeyword .var_)
    (ih : Accepted .varTail l ts s rest) :
    Accepted (.declaration false) l (keyword :: ts) s rest := by
  refine accepted_of fun _ fuel c hl hs hf => ?_
  simp only [Rule.rank, List.length_cons] at hf
  have hfun : keyword.isKeyword .fun_ = false := Token.isKeyword_ne hk (by decide)
  show (declaration _).Takes c _ _ _
  rw [declaration]
  refine (takes_nothing (stops_cons (Token.isKeyword_ne hk (by decide)))).bind ?_
  rintro _ rfl
  refine (takes_startsFunction_false (by simp [hfun])).bind ?_
  rintro _ rfl
  refine (takes_accept hk).bind ?_
  rintro _ rfl
  exact ih trivial hl (stops_false _) (by simp only [Rule.rank]; omega)

theorem accepted_statementDecl {short : Bool} {s : Stmt} (d : Derives (.statement short) l ts s rest)
    (ih : Accepted (.statement short) l ts s rest) :
    Accepted (.declaration short) l ts s rest := by
  refine accepted_of fun _ fuel c hl hs hf => ?_
  have h : (statement fuel).Takes c ts rest fun s' => s'.erase = s :=
    ih trivial hl hs (Nat.le_of_succ_le_succ hf)
  obtain ⟨t, more, rfl, ht, hlambda⟩ := d.starts
  obtain ⟨hclass, hvar⟩ := startsStatement_not_declaration ht
  show (declaration _).Takes c _ _ _
  rw [declaration]
  refine (takes_nothing (stops_cons hclass)).bind ?_
  rintro _ rfl
  refine (takes_startsFunction_false hlambda).bind ?_
  rintro _ rfl
  refine (takes_nothing (stops_cons hvar)).bind ?_
  rintro _ rfl
  exact h

theorem accepted_noMethod : Accepted .methods l rest [] rest := by
  refine accepted_of fun _ fuel c hl hs hf => ?_
  show (methods _).Takes c _ _ _
  rw [methods]
  refine (takes_endsBlock hs).bind ?_
  rintro _ rfl
  exact takes_pure (by simp only [eraseMethods])

theorem accepted_nextMethod {f : FunctionDecl} {fs : List FunctionDecl}
    (d : Derives .function l ts f ts') (ih : Accepted .function l ts f ts')
    (ihm : Accepted .methods l ts' fs rest) : Accepted .methods l ts (f :: fs) rest := by
  refine accepted_of fun _ fuel c hl hs hf => ?_
  have hlen := d.length_lt rfl
  obtain ⟨name, more, rfl, hn⟩ := d.starts
  have hbrace : name.isSymbol .rightBrace = false := by
    simp [Token.isSymbol, Token.isIdentifier_iff.1 hn]
  show (methods _).Takes c _ _ _
  rw [methods]
  refine (takes_endsBlock_false hbrace).bind ?_
  rintro _ rfl
  refine (ih trivial hl (stops_false _) (Nat.le_of_succ_le_succ hf) _).bind ?_
  rintro first rfl
  refine (ihm trivial hl hs (by simp only [Rule.rank] at *; omega)).bind ?_
  rintro members rfl
  exact takes_pure (by simp only [eraseMethods])

theorem accepted_varTail {bindings : List (Token × Option Expr)} {semicolon : Token}
    (hc : semicolon.isSymbol .semicolon) (ih : Accepted .bindings l ts bindings (semicolon :: rest)) :
    Accepted .varTail l ts (.var bindings) rest := by
  refine accepted_of fun _ fuel c hl hs hf => ?_
  show (varDeclaration _).Takes c _ _ _
  rw [varDeclaration]
  refine (ih trivial hl (stops_closedList hc rfl) (Nat.le_of_succ_le_succ hf)).bind ?_
  rintro names rfl
  exact (takes_expect hc).bind fun _ _ => takes_pure (by simp only [Stmt.erase])

theorem accepted_lastName {name : Token} (hn : name.isIdentifier) :
    Accepted .bindings l (name :: rest) [(name, none)] rest := by
  refine accepted_of fun _ fuel c hl hs hf => ?_
  obtain ⟨hexpression, hcomma⟩ : Stops continuesExpression rest ∧
    Stops (Token.isSymbol .comma) rest := hs.or
  have hequal : Stops (Token.isSymbol .equal) rest := (Stops.or (p := continuesTernary) hexpression).2
  show (bindings _).Takes c _ _ _
  rw [bindings]
  refine (takes_expect hn).bind ?_
  rintro _ rfl
  refine (takes_nothing hequal).bind ?_
  rintro _ rfl
  refine (takes_value none).bind ?_
  rintro _ rfl
  refine (takes_nothing hcomma).bind ?_
  rintro _ rfl
  exact takes_pure (by simp only [eraseBindings])

theorem accepted_lastValue {name equals : Token} {value : Expr} (hn : name.isIdentifier)
    (he : equals.isSymbol .equal) (ihv : Accepted .expression l ts value rest) :
    Accepted .bindings l (name :: equals :: ts) [(name, some value)] rest := by
  refine accepted_of fun _ fuel c hl hs hf => ?_
  obtain ⟨hexpression, hcomma⟩ : Stops continuesExpression rest ∧
    Stops (Token.isSymbol .comma) rest := hs.or
  simp only [Rule.rank, List.length_cons] at hf
  show (bindings _).Takes c _ _ _
  rw [bindings]
  refine (takes_expect hn).bind ?_
  rintro _ rfl
  refine (takes_accept he).bind ?_
  rintro _ rfl
  refine (Takes.some (ihv trivial hl hexpression (by simp only [Rule.rank]; omega))).bind ?_
  rintro _ ⟨e, rfl, rfl⟩
  refine (takes_nothing hcomma).bind ?_
  rintro _ rfl
  exact takes_pure (by simp only [eraseBindings])

theorem accepted_nextName {name comma : Token} {more : List (Token × Option Expr)}
    (hn : name.isIdentifier) (hc : comma.isSymbol .comma) (ihm : Accepted .bindings l ts more rest) :
    Accepted .bindings l (name :: comma :: ts) ((name, none) :: more) rest := by
  refine accepted_of fun _ fuel c hl hs hf => ?_
  simp only [Rule.rank, List.length_cons] at hf
  show (bindings _).Takes c _ _ _
  rw [bindings]
  refine (takes_expect hn).bind ?_
  rintro _ rfl
  refine (takes_nothing (stops_cons (Token.isSymbol_ne hc (by decide)))).bind ?_
  rintro _ rfl
  refine (takes_value none).bind ?_
  rintro _ rfl
  refine (takes_accept hc).bind ?_
  rintro _ rfl
  refine (ihm trivial hl hs (by simp only [Rule.rank]; omega)).bind ?_
  rintro bs rfl
  exact takes_pure (by simp only [eraseBindings])

theorem accepted_nextValue {name equals comma : Token} {value : Expr}
    {more : List (Token × Option Expr)} (hlen : ts'.length < ts.length) (hn : name.isIdentifier)
    (he : equals.isSymbol .equal) (hc : comma.isSymbol .comma)
    (ihv : Accepted .expression l ts value (comma :: ts'))
    (ihm : Accepted .bindings l ts' more rest) :
    Accepted .bindings l (name :: equals :: ts) ((name, some value) :: more) rest := by
  refine accepted_of fun _ fuel c hl hs hf => ?_
  simp only [Rule.rank, List.length_cons] at hf
  show (bindings _).Takes c _ _ _
  rw [bindings]
  refine (takes_expect hn).bind ?_
  rintro _ rfl
  refine (takes_accept he).bind ?_
  rintro _ rfl
  refine (Takes.some (ihv trivial hl (stops_comma hc) (by simp only [Rule.rank]; omega))).bind ?_
  rintro _ ⟨e, rfl, rfl⟩
  refine (takes_accept hc).bind ?_
  rintro _ rfl
  refine (ihm trivial hl hs (by simp only [Rule.rank]; omega)).bind ?_
  rintro bs rfl
  exact takes_pure (by simp only [eraseBindings])

/-! ### Statements -/

theorem takes_expressionStatement {fuel : Nat} {c : Cursor} {semicolon : Token}
    (hc : semicolon.isSymbol .semicolon) (hl : decide (0 < c.loops) = l)
    (hf : 16 * ts.length + 12 ≤ fuel) (ih : Accepted .expression l ts e (semicolon :: rest)) :
    Takes (expressionStatement fuel) c ts rest fun s => s.erase = .expression e := by
  obtain ⟨fuel, rfl⟩ : ∃ k, fuel = k + 1 := ⟨fuel - 1, by omega⟩
  rw [expressionStatement]
  refine (ih trivial hl (stops_closed hc rfl) (Nat.le_of_succ_le_succ hf)).bind ?_
  rintro value rfl
  exact (takes_expect hc).bind fun _ _ => takes_pure (by simp only [Stmt.erase])

/-- Whatever surrounds a loop, its body is inside of one. -/
theorem takes_loopBody {fuel : Nat} {c : Cursor} {short : Bool} {body : Stmt}
    (hs : Stops (Rule.statement short).continuedBy rest) (hf : 16 * ts.length + 14 ≤ fuel)
    (ih : Accepted (.statement short) true ts body rest) :
    Takes (loopBody fuel) c ts rest fun s => s.erase = body := by
  obtain ⟨fuel, rfl⟩ : ∃ k, fuel = k + 1 := ⟨fuel - 1, by omega⟩
  rw [loopBody]
  exact takes_withLoops (fun _ => rfl)
    (ih trivial (decide_eq_true (Nat.succ_pos _)) hs (Nat.le_of_succ_le_succ hf))

theorem accepted_noStart {semicolon : Token} (hc : semicolon.isSymbol .semicolon) :
    Accepted .forStart l (semicolon :: rest) none rest := by
  refine accepted_of fun _ fuel c hl hs hf => ?_
  show (forStart _).Takes c _ _ _
  rw [forStart]
  refine (takes_accept hc).bind ?_
  rintro _ rfl
  exact takes_pure rfl

theorem accepted_varStart {keyword : Token} {s : Stmt} (hk : keyword.isKeyword .var_)
    (ih : Accepted .varTail l ts s rest) :
    Accepted .forStart l (keyword :: ts) (some s) rest := by
  refine accepted_of fun _ fuel c hl hs hf => ?_
  simp only [Rule.rank, List.length_cons] at hf
  have hsemicolon : keyword.isSymbol .semicolon = false := by
    simp [Token.isSymbol, Token.isKeyword_iff.1 hk]
  show (forStart _).Takes c _ _ _
  rw [forStart]
  refine (takes_nothing (stops_cons hsemicolon)).bind ?_
  rintro _ rfl
  refine (takes_accept hk).bind ?_
  rintro _ rfl
  refine (ih trivial hl (stops_false _) (by simp only [Rule.rank]; omega)).bind ?_
  rintro s' rfl
  exact takes_pure rfl

theorem accepted_expressionStart {semicolon : Token}
    (d : Derives .expression l ts e (semicolon :: rest)) (hc : semicolon.isSymbol .semicolon)
    (ih : Accepted .expression l ts e (semicolon :: rest)) :
    Accepted .forStart l ts (some (.expression e)) rest := by
  refine accepted_of fun _ fuel c hl hs hf => ?_
  have h : Takes (expressionStatement fuel) c ts rest fun s => s.erase = .expression e :=
    takes_expressionStatement hc hl (Nat.le_of_succ_le_succ hf) ih
  obtain ⟨t, more, rfl, ht, -⟩ := d.starts
  have hvar := (startsStatement_not_declaration (t := t) (by rw [ht, Bool.true_or])).2
  show (forStart _).Takes c _ _ _
  rw [forStart]
  refine (takes_nothing (stops_cons (startsExpression_not_closed ht rfl))).bind ?_
  rintro _ rfl
  refine (takes_nothing (stops_cons hvar)).bind ?_
  rintro _ rfl
  exact h.bind fun s hs => takes_pure (by rw [Option.map_some, hs])

theorem accepted_absent {closing : Symbol} {close : Token} (hc : close.isSymbol closing) :
    Accepted (.optional closing) l (close :: rest) none (close :: rest) := by
  refine accepted_of fun _ fuel c hl hs hf => ?_
  show (optionalExpression _ _).Takes c _ _ _
  rw [optionalExpression]
  refine (takes_check hc).bind ?_
  rintro _ rfl
  exact takes_pure rfl

theorem accepted_present {closing : Symbol} (d : Derives .expression l ts e rest)
    (ih : Accepted .expression l ts e rest) :
    Accepted (.optional closing) l ts (some e) rest := by
  refine accepted_of fun hp fuel c hl hs hf => ?_
  have h : (expression fuel).Takes c ts rest fun e' => e'.erase = e :=
    ih trivial hl hs (Nat.le_of_succ_le_succ hf)
  obtain ⟨t, more, rfl, ht, -⟩ := d.starts
  show (optionalExpression _ _).Takes c _ _ _
  rw [optionalExpression]
  refine (takes_check (startsExpression_not_closed ht hp)).bind ?_
  rintro _ rfl
  exact h.bind fun e' he' => takes_pure (by rw [Option.map_some, he'])

theorem accepted_forStatement {short : Bool} {keyword opening semicolon close : Token}
    {first : Option Stmt} {condition increment : Option Expr} {body : Stmt}
    {ts₁ ts₂ ts₃ : List Token} (hlen₁ : ts₁.length < ts.length) (hlen₂ : ts₂.length < ts₁.length)
    (hlen₃ : ts₃.length < ts₂.length) (hk : keyword.isKeyword .for_)
    (ho : opening.isSymbol .leftParen) (hm : semicolon.isSymbol .semicolon)
    (hp : close.isSymbol .rightParen) (ihs : Accepted .forStart l ts first ts₁)
    (ihc : Accepted (.optional .semicolon) l ts₁ condition (semicolon :: ts₂))
    (ihi : Accepted (.optional .rightParen) l ts₂ increment (close :: ts₃))
    (ihb : Accepted (.statement short) true ts₃ body rest) :
    Accepted (.statement short) l (keyword :: opening :: ts)
      (forLoop first condition increment body) rest := by
  refine accepted_of fun _ fuel c hl hs hf => ?_
  simp only [Rule.rank, List.length_cons] at hf
  obtain ⟨fuel, rfl⟩ : ∃ k, fuel = k + 1 := ⟨fuel - 1, by omega⟩
  have hkind := Token.isKeyword_iff.1 hk
  refine Takes.behind (q := forStatement (fuel + 1)) ?_ fun n => by
    simp only [statement, Cursor.to, hkind]
  rw [forStatement]
  refine (takes_expect ho).bind fun _ _ => ?_
  refine (ihs trivial hl (stops_false _) (by simp only [Rule.rank]; omega)).bind ?_
  rintro first rfl
  refine (ihc rfl hl (stops_closed hm rfl) (by simp only [Rule.rank]; omega)).bind ?_
  rintro condition rfl
  refine (takes_expect hm).bind fun _ _ => ?_
  refine (ihi rfl hl (stops_closed hp rfl) (by simp only [Rule.rank]; omega)).bind ?_
  rintro increment rfl
  refine (takes_expect hp).bind fun _ _ => ?_
  refine (takes_loopBody hs (by omega) ihb).bind ?_
  rintro body rfl
  rw [← erase_forLoop]
  cases first <;> exact takes_pure rfl

theorem accepted_ifStatement {short : Bool} {keyword opening close : Token} {condition : Expr}
    {whenTrue : Stmt} (hlen : ts'.length < ts.length) (hk : keyword.isKeyword .if_)
    (ho : opening.isSymbol .leftParen) (hp : close.isSymbol .rightParen)
    (ihc : Accepted .expression l ts condition (close :: ts'))
    (iht : Accepted (.statement short) l ts' whenTrue rest) :
    Accepted (.statement true) l (keyword :: opening :: ts) (.conditional condition whenTrue none)
      rest := by
  refine accepted_of fun _ fuel c hl hs hf => ?_
  simp only [Rule.rank, List.length_cons] at hf
  obtain ⟨fuel, rfl⟩ : ∃ k, fuel = k + 1 := ⟨fuel - 1, by omega⟩
  have hkind := Token.isKeyword_iff.1 hk
  have helse : Stops (Token.isKeyword .else_) rest := hs.mono fun t ht => by simpa [Rule.continuedBy]
  have hshort : Stops (Rule.statement short).continuedBy rest :=
    helse.mono fun t ht => (Bool.and_eq_true_iff.1 ht).2
  refine Takes.behind (q := ifStatement (fuel + 1)) ?_ fun n => by
    simp only [statement, Cursor.to, hkind]
  rw [ifStatement]
  refine (takes_expect ho).bind fun _ _ => ?_
  refine (ihc trivial hl (stops_closed hp rfl) (by simp only [Rule.rank]; omega)).bind ?_
  rintro condition rfl
  refine (takes_expect hp).bind fun _ _ => ?_
  refine (iht trivial hl hshort (by simp only [Rule.rank]; omega)).bind ?_
  rintro whenTrue rfl
  refine (takes_nothing helse).bind ?_
  rintro _ rfl
  exact takes_pure (by simp only [Stmt.erase])

theorem accepted_elseStatement {short : Bool} {keyword opening close other : Token}
    {condition : Expr} {whenTrue whenFalse : Stmt} {ts₁ ts₂ : List Token}
    (hlen₁ : ts₁.length < ts.length) (hlen₂ : ts₂.length < ts₁.length)
    (hk : keyword.isKeyword .if_) (ho : opening.isSymbol .leftParen)
    (hp : close.isSymbol .rightParen) (he : other.isKeyword .else_)
    (ihc : Accepted .expression l ts condition (close :: ts₁))
    (iht : Accepted (.statement false) l ts₁ whenTrue (other :: ts₂))
    (ihf : Accepted (.statement short) l ts₂ whenFalse rest) :
    Accepted (.statement short) l (keyword :: opening :: ts)
      (.conditional condition whenTrue (some whenFalse)) rest := by
  refine accepted_of fun _ fuel c hl hs hf => ?_
  simp only [Rule.rank, List.length_cons] at hf
  obtain ⟨fuel, rfl⟩ : ∃ k, fuel = k + 1 := ⟨fuel - 1, by omega⟩
  have hkind := Token.isKeyword_iff.1 hk
  refine Takes.behind (q := ifStatement (fuel + 1)) ?_ fun n => by
    simp only [statement, Cursor.to, hkind]
  rw [ifStatement]
  refine (takes_expect ho).bind fun _ _ => ?_
  refine (ihc trivial hl (stops_closed hp rfl) (by simp only [Rule.rank]; omega)).bind ?_
  rintro condition rfl
  refine (takes_expect hp).bind fun _ _ => ?_
  refine (iht trivial hl (stops_cons rfl) (by simp only [Rule.rank]; omega)).bind ?_
  rintro whenTrue rfl
  refine (takes_accept he).bind ?_
  rintro _ rfl
  refine (ihf trivial hl hs (by simp only [Rule.rank]; omega)).bind ?_
  rintro whenFalse rfl
  exact takes_pure (by simp only [Stmt.erase])

theorem accepted_whileStatement {short : Bool} {keyword opening close : Token} {condition : Expr}
    {body : Stmt} (hlen : ts'.length < ts.length) (hk : keyword.isKeyword .while_)
    (ho : opening.isSymbol .leftParen) (hp : close.isSymbol .rightParen)
    (ihc : Accepted .expression l ts condition (close :: ts'))
    (ihb : Accepted (.statement short) true ts' body rest) :
    Accepted (.statement short) l (keyword :: opening :: ts) (.loop condition body none) rest := by
  refine accepted_of fun _ fuel c hl hs hf => ?_
  simp only [Rule.rank, List.length_cons] at hf
  obtain ⟨fuel, rfl⟩ : ∃ k, fuel = k + 1 := ⟨fuel - 1, by omega⟩
  have hkind := Token.isKeyword_iff.1 hk
  refine Takes.behind (q := whileStatement (fuel + 1)) ?_ fun n => by
    simp only [statement, Cursor.to, hkind]
  rw [whileStatement]
  refine (takes_expect ho).bind fun _ _ => ?_
  refine (ihc trivial hl (stops_closed hp rfl) (by simp only [Rule.rank]; omega)).bind ?_
  rintro condition rfl
  refine (takes_expect hp).bind fun _ _ => ?_
  refine (takes_loopBody hs (by omega) ihb).bind ?_
  rintro body rfl
  exact takes_pure (by simp only [Stmt.erase])

theorem accepted_returnStatement {keyword semicolon : Token} {value : Option Expr}
    (hk : keyword.isKeyword .return_) (hm : semicolon.isSymbol .semicolon)
    (ih : Accepted (.optional .semicolon) l ts value (semicolon :: rest)) :
    Accepted (.statement false) l (keyword :: ts) (.returning keyword value) rest := by
  refine accepted_of fun _ fuel c hl hs hf => ?_
  simp only [Rule.rank, List.length_cons] at hf
  obtain ⟨fuel, rfl⟩ : ∃ k, fuel = k + 1 := ⟨fuel - 1, by omega⟩
  have hkind := Token.isKeyword_iff.1 hk
  refine Takes.behind (q := returnStatement (fuel + 1) keyword) ?_ fun n => by
    simp only [statement, Cursor.to, hkind]
  rw [returnStatement]
  refine (ih rfl hl (stops_closed hm rfl) (by simp only [Rule.rank]; omega)).bind ?_
  rintro value rfl
  exact (takes_expect hm).bind fun _ _ => takes_pure (erase_returning keyword value)

/-- A jump is read where a loop surrounds it. -/
theorem takes_jumpStatement {outside : SyntaxCause} {what : Expected} {node : Token → Stmt}
    {keyword semicolon : Token} {c : Cursor} (hl : decide (0 < c.loops) = true)
    (hm : semicolon.isSymbol .semicolon) :
    Takes (jumpStatement outside what node keyword) c (semicolon :: rest) rest (· = node keyword) := by
  have h : Takes (do let _ ← symbol .semicolon what; return node keyword) c (semicolon :: rest) rest
      (· = node keyword) := (takes_expect hm).bind fun _ _ => takes_pure rfl
  intro n
  have hloops : (c.to (semicolon :: rest) n).loops ≠ 0 := Nat.pos_iff_ne_zero.1 (of_decide_eq_true hl)
  rw [jumpStatement, if_neg hloops]
  exact h n

theorem accepted_jump (outside : SyntaxCause) (what : Expected) (node : Token → Stmt)
    {keyword semicolon : Token} (hm : semicolon.isSymbol .semicolon)
    (h : ∀ fuel c n, statement (fuel + 1) (Cursor.to c (keyword :: semicolon :: rest) n) =
      jumpStatement outside what node keyword (c.to (semicolon :: rest) n))
    (hnode : (node keyword).erase = node keyword) :
    Accepted (.statement false) true (keyword :: semicolon :: rest) (node keyword) rest := by
  refine accepted_of fun _ fuel c hl hs hf => ?_
  refine Takes.behind (Takes.mono (takes_jumpStatement hl hm) ?_) (h fuel c)
  rintro _ rfl
  exact hnode

theorem accepted_blockStatement {opening : Token} {body : List Stmt}
    (ho : opening.isSymbol .leftBrace) (ih : Accepted .block l ts body rest) :
    Accepted (.statement false) l (opening :: ts) (.block body) rest := by
  refine accepted_of fun _ fuel c hl hs hf => ?_
  simp only [Rule.rank, List.length_cons] at hf
  obtain ⟨fuel, rfl⟩ : ∃ k, fuel = k + 1 := ⟨fuel - 1, by omega⟩
  have hkind := Token.isSymbol_iff.1 ho
  refine Takes.behind (q := blockStatement (fuel + 1)) ?_ fun n => by
    simp only [statement, Cursor.to, hkind]
  rw [blockStatement]
  refine (ih trivial hl (stops_false _) (by simp only [Rule.rank]; omega)).bind ?_
  rintro stmts rfl
  exact takes_pure (by simp only [Stmt.erase])

theorem accepted_printStatement {keyword semicolon : Token} (hk : keyword.isKeyword .print_)
    (hm : semicolon.isSymbol .semicolon) (ih : Accepted .expression l ts e (semicolon :: rest)) :
    Accepted (.statement false) l (keyword :: ts) (.print e) rest := by
  refine accepted_of fun _ fuel c hl hs hf => ?_
  simp only [Rule.rank, List.length_cons] at hf
  obtain ⟨fuel, rfl⟩ : ∃ k, fuel = k + 1 := ⟨fuel - 1, by omega⟩
  have hkind := Token.isKeyword_iff.1 hk
  refine Takes.behind (q := printStatement (fuel + 1)) ?_ fun n => by
    simp only [statement, Cursor.to, hkind]
  rw [printStatement]
  refine (ih trivial hl (stops_closed hm rfl) (by simp only [Rule.rank]; omega)).bind ?_
  rintro value rfl
  exact (takes_expect hm).bind fun _ _ => takes_pure (by simp only [Stmt.erase])

theorem accepted_expressionStatement {semicolon : Token}
    (d : Derives .expression l ts e (semicolon :: rest)) (hm : semicolon.isSymbol .semicolon)
    (ih : Accepted .expression l ts e (semicolon :: rest)) :
    Accepted (.statement false) l ts (.expression e) rest := by
  refine accepted_of fun _ fuel c hl hs hf n => ?_
  obtain ⟨t, more, rfl, ht, -⟩ := d.starts
  -- no expression begins with a token that the statement looks for
  have hdefault : statement (fuel + 1) (c.to (t :: more) n) =
      expressionStatement fuel (c.to (t :: more) n) := by
    rw [statement]
    simp only [Cursor.to]
    split <;>
      first
      | rfl
      | next hk => simp [startsExpression, startsOperand, isPrefixOperator, Token.isSymbol, hk] at ht
  rw [hdefault]
  exact takes_expressionStatement hm hl (Nat.le_of_succ_le_succ hf) ih n

end Production

open Production in
/-- Every phrase is accepted. -/
theorem Derives.accepted {rule : Rule} {l : Bool} {ts rest : List Token} {t : rule.Tree}
    (h : Derives rule l ts t rest) : Accepted rule l ts t rest := by
  induction h with
  | simple _ ih => exact accepted_simple ih
  | assign hn he _ ih => exact accepted_assign hn he ih
  | set ht he _ iht ihv => exact accepted_set ht he iht ihv
  | noChoice _ ih => exact accepted_noChoice ih
  | choice hc hq ht hs _ ihc iht ihf =>
    exact accepted_choice (Nat.lt_of_succ_lt (hc.length_lt rfl)) (Nat.lt_of_succ_lt (ht.length_lt rfl))
      hq hs ihc iht ihf
  | tightest _ ih => exact accepted_tightest ih
  | level hf hm ihf ihm => exact accepted_level (hf.length_lt rfl) hm ihf ihm
  | noOperand => exact accepted_noOperand
  | operand ho hr hm ihr ihm => exact accepted_operand (hr.length_lt rfl) ho hm ihr ihm
  | before ho _ ih => exact accepted_before ho ih
  | after h ho ih => exact accepted_after h ho ih
  | bare h ih => exact accepted_bare h ih
  | call hp _ ihp ihm => exact accepted_call (hp.length_lt rfl) ihp ihm
  | noSuffix => exact accepted_noSuffix
  | callSuffix ho ha _ iha ihm => exact accepted_callSuffix (ha.length_lt rfl) ho iha ihm
  | indexSuffix hb hp hc _ ihp ihm =>
    exact accepted_indexSuffix (Nat.lt_of_succ_lt (hp.length_lt rfl)) hb hc ihp ihm
  | getSuffix hd hn _ ihm => exact accepted_getSuffix hd hn ihm
  | falseLiteral h | trueLiteral h | nilLiteral h =>
    have hkind := Token.isKeyword_iff.1 h
    exact accepted_literal fun fuel c n => by simp only [primary, Cursor.to, hkind]
  | number h | string h =>
    exact accepted_literal fun fuel c n => by simp only [primary, Cursor.to, h]
  | this h => exact accepted_this h
  | name h => exact accepted_name h
  | group ho _ hc ih => exact accepted_group ho hc ih
  | array hb _ ih => exact accepted_array hb ih
  | lambda hk ho _ ih => exact accepted_lambda hk ho ih
  | noArguments hc => exact accepted_noArguments hc
  | someArguments h hc ih => exact accepted_someArguments h hc ih
  | lastArgument _ ih => exact accepted_lastArgument ih
  | nextArgument h hc _ ih ihm =>
    exact accepted_nextArgument (Nat.lt_of_succ_lt (h.length_lt rfl)) hc ih ihm
  | lastParameter hn => exact accepted_lastParameter hn
  | nextParameter hn hc _ ihm => exact accepted_nextParameter hn hc ihm
  | noParameters hc ho _ ih => exact accepted_noParameters hc ho ih
  | someParameters hp hc ho _ ihp ihb => exact accepted_someParameters hp hc ho ihp ihb
  | function hn ho _ ih => exact accepted_function hn ho ih
  | block _ hc ih => exact accepted_block hc ih
  | noDeclaration => exact accepted_noDeclaration
  | nextDeclaration h hm ih ihm => exact accepted_nextDeclaration h hm ih ihm
  | classDecl hk hn ho _ hc ihm => exact accepted_classDecl hk hn ho hc ihm
  | functionDecl hk h ih => exact accepted_functionDecl hk h ih
  | varDecl hk _ ih => exact accepted_varDecl hk ih
  | statementDecl h ih => exact accepted_statementDecl h ih
  | noMethod => exact accepted_noMethod
  | nextMethod h _ ih ihm => exact accepted_nextMethod h ih ihm
  | varTail _ hs ih => exact accepted_varTail hs ih
  | lastName hn => exact accepted_lastName hn
  | lastValue hn he _ ih => exact accepted_lastValue hn he ih
  | nextName hn hc _ ihm => exact accepted_nextName hn hc ihm
  | nextValue hn he hv hc _ ihv ihm =>
    exact accepted_nextValue (Nat.lt_of_succ_lt (hv.length_lt rfl)) hn he hc ihv ihm
  | noStart hs => exact accepted_noStart hs
  | varStart hk _ ih => exact accepted_varStart hk ih
  | expressionStart h hs ih => exact accepted_expressionStart h hs ih
  | absent hc => exact accepted_absent hc
  | present h ih => exact accepted_present h ih
  | forStatement hk ho hs hc hm hi hp _ ihs ihc ihi ihb =>
    exact accepted_forStatement (hs.length_lt rfl) (Nat.lt_of_succ_le hc.length_le)
      (Nat.lt_of_succ_le hi.length_le) hk ho hm hp ihs ihc ihi ihb
  | ifStatement hk ho hc hp _ ihc iht =>
    exact accepted_ifStatement (Nat.lt_of_succ_lt (hc.length_lt rfl)) hk ho hp ihc iht
  | elseStatement hk ho hc hp ht he _ ihc iht ihf =>
    exact accepted_elseStatement (Nat.lt_of_succ_lt (hc.length_lt rfl))
      (Nat.lt_of_succ_lt (ht.length_lt rfl)) hk ho hp he ihc iht ihf
  | whileStatement hk ho hc hp _ ihc ihb =>
    exact accepted_whileStatement (Nat.lt_of_succ_lt (hc.length_lt rfl)) hk ho hp ihc ihb
  | returnStatement hk _ hs ih => exact accepted_returnStatement hk hs ih
  | breakStatement hk hs =>
    have hkind := Token.isKeyword_iff.1 hk
    exact accepted_jump .breakOutsideLoop .endOfBreak .breaking hs
      (fun fuel c n => by simp only [statement, Cursor.to, hkind]) (by simp only [Stmt.erase])
  | continueStatement hk hs =>
    have hkind := Token.isKeyword_iff.1 hk
    exact accepted_jump .continueOutsideLoop .endOfContinue .continuing hs
      (fun fuel c n => by simp only [statement, Cursor.to, hkind]) (by simp only [Stmt.erase])
  | blockStatement ho _ ih => exact accepted_blockStatement ho ih
  | printStatement hk _ hs ih => exact accepted_printStatement hk hs ih
  | expressionStatement h hs ih => exact accepted_expressionStatement h hs ih

end TreeWalk
