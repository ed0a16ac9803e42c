import TreeWalk.Proofs.Grammar

/-!
# What a phrase can begin with and what can follow it

A production looks at the next token, or the next two, to choose what to read. This is enough
because phrases begin with tokens of known kinds (`Derives.starts`), and because a phrase that is
followed by no token that could continue it (`Stops`) ends where its production stops.
-/

namespace TreeWalk

theorem Token.isSymbol_ne {t : Token} {s s' : Symbol} (h : t.isSymbol s) (hne : s ≠ s') :
    t.isSymbol s' = false := by
  rw [Token.isSymbol_iff] at h
  simp [Token.isSymbol, h, hne]

theorem Token.isKeyword_ne {t : Token} {k k' : Keyword} (h : t.isKeyword k) (hne : k ≠ k') :
    t.isKeyword k' = false := by
  rw [Token.isKeyword_iff] at h
  simp [Token.isKeyword, h, hne]

/-! ### Beginnings -/

def startsOperand (t : Token) : Bool :=
  match t.kind with
  | .keyword .false_ | .keyword .true_ | .keyword .nil_ | .keyword .this_ | .keyword .fun_ => true
  | .number _ | .string _ | .identifier => true
  | .symbol .leftParen | .symbol .leftBracket => true
  | _ => false

def startsExpression (t : Token) : Bool :=
  startsOperand t || isPrefixOperator t

def startsKeywordStatement (t : Token) : Bool :=
  match t.kind with
  | .keyword .for_ | .keyword .if_ | .keyword .while_ | .keyword .return_ | .keyword .break_
  | .keyword .continue_ | .keyword .print_ | .symbol .leftBrace => true
  | _ => false

def startsDeclaration (t : Token) : Bool :=
  startsExpression t || startsKeywordStatement t || t.isKeyword .class_ || t.isKeyword .var_

/-- The first token satisfies `starts`, and behind a first `fun` stands a parenthesis. -/
def Begins (starts : Token → Bool) (ts : List Token) : Prop :=
  ∃ t rest, ts = t :: rest ∧ starts t ∧
    (t.isKeyword .fun_ → ∃ paren rest', rest = paren :: rest' ∧ paren.isSymbol .leftParen)

theorem Begins.mono {starts starts' : Token → Bool} {ts : List Token} (h : Begins starts ts)
    (hs : ∀ t, starts t → starts' t) : Begins starts' ts := by
  obtain ⟨t, rest, hts, ht, hf⟩ := h
  exact ⟨t, rest, hts, hs t ht, hf⟩

theorem begins_symbol {starts : Token → Bool} {s : Symbol} {t : Token} {rest : List Token}
    (h : t.isSymbol s) (hs : starts t) : Begins starts (t :: rest) := by
  refine ⟨t, rest, rfl, hs, fun hf => ?_⟩
  rw [Token.isSymbol_iff] at h
  simp [Token.isKeyword, h] at hf

theorem begins_keyword {starts : Token → Bool} {k : Keyword} {t : Token} {rest : List Token}
    (h : t.isKeyword k) (hk : k ≠ .fun_) (hs : starts t) : Begins starts (t :: rest) :=
  ⟨t, rest, rfl, hs, fun hf => by rw [Token.isKeyword_ne h hk] at hf; cases hf⟩

theorem startsExpression_of_operand {t : Token} (h : startsOperand t) : startsExpression t := by
  simp [startsExpression, h]

theorem isPrefixOperator_of_startsOperand {t : Token} (h : startsOperand t) :
    isPrefixOperator t = false := by
  unfold startsOperand at h
  split at h <;> simp_all [isPrefixOperator, Token.isSymbol]

/-- How deeply the productions nest before the production of the rule takes a token. -/
def Rule.rank : Rule → Nat
  | .unary => 2
  | .binary levels => 3 + levels.length
  | .ternary => 10
  | .expression => 11
  | .argumentList _ | .optional _ => 12
  | .arguments _ | .forStart | .statement _ => 13
  | .declaration _ => 14
  | .declarations => 15
  | .block => 16
  | .methods | .varTail => 2
  | _ => 1

theorem Rule.rank_pos (rule : Rule) : 0 < rule.rank := by
  cases rule with
  | binary levels => rw [Rule.rank]; omega
  | _ => simp [Rule.rank]

/-- How the phrases of a rule begin, where a production has to know. -/
def Rule.Starts : Rule → List Token → Prop
  | .call | .primary => Begins startsOperand
  | .expression | .ternary | .binary _ | .unary | .argumentList _ => Begins startsExpression
  | .statement _ => Begins fun t => startsExpression t || startsKeywordStatement t
  | .declaration _ => fun ts => ∃ t rest, ts = t :: rest ∧ startsDeclaration t
  | .function => fun ts => ∃ t rest, ts = t :: rest ∧ t.isIdentifier
  | _ => fun _ => True

/-- Every phrase begins as its rule says. -/
theorem Derives.starts {rule : Rule} {l : Bool} {ts rest : List Token} {t : rule.Tree}
    (h : Derives rule l ts t rest) : rule.Starts ts := by
  induction h with
  | simple _ ih | noChoice _ ih | choice _ _ _ _ _ ih | tightest _ ih | level _ _ ih => exact ih
  | lastArgument _ ih | nextArgument _ _ _ ih => exact ih
  | assign hn =>
    have hk := Token.isIdentifier_iff.1 hn
    exact ⟨_, _, rfl, by simp [startsExpression, startsOperand, hk], by simp [Token.isKeyword, hk]⟩
  | set _ _ _ ih | after _ _ ih | bare _ ih => exact ih.mono fun _ => startsExpression_of_operand
  | before ho =>
    refine ⟨_, _, rfl, by simp [startsExpression, ho], fun hf => ?_⟩
    rw [Token.isKeyword_iff] at hf
    simp [isPrefixOperator, Token.isSymbol, hf] at ho
  | call _ _ ih => exact ih
  | falseLiteral h | trueLiteral h | nilLiteral h | this h =>
    exact begins_keyword h (by decide) (by rw [startsOperand, Token.isKeyword_iff.1 h])
  | number h | string h =>
    exact ⟨_, _, rfl, by rw [startsOperand, h], by simp [Token.isKeyword, h]⟩
  | name h =>
    have hk := Token.isIdentifier_iff.1 h
    exact ⟨_, _, rfl, by rw [startsOperand, hk], by simp [Token.isKeyword, hk]⟩
  | group h | array h => exact begins_symbol h (by rw [startsOperand, Token.isSymbol_iff.1 h])
  | lambda hk ho =>
    exact ⟨_, _, rfl, by rw [startsOperand, Token.isKeyword_iff.1 hk], fun _ => ⟨_, _, rfl, ho⟩⟩
  | function hn => exact ⟨_, _, rfl, hn⟩
  | classDecl hk => exact ⟨_, _, rfl, by simp [startsDeclaration, hk]⟩
  | functionDecl hk =>
    have hk := Token.isKeyword_iff.1 hk
    exact ⟨_, _, rfl, by simp [startsDeclaration, startsExpression, startsOperand, hk]⟩
  | varDecl hk => exact ⟨_, _, rfl, by simp [startsDeclaration, hk]⟩
  | statementDecl _ ih =>
    obtain ⟨t, rest, hts, ht, -⟩ := ih
    exact ⟨t, rest, hts, by simp_all [startsDeclaration]⟩
  | forStatement hk | ifStatement hk | elseStatement hk | whileStatement hk | returnStatement hk
  | breakStatement hk | continueStatement hk | printStatement hk =>
    have hkind := Token.isKeyword_iff.1 hk
    exact begins_keyword hk (by decide) (by simp [startsKeywordStatement, hkind])
  | blockStatement ho =>
    have hkind := Token.isSymbol_iff.1 ho
    exact begins_symbol ho (by simp [startsKeywordStatement, hkind])
  | expressionStatement _ _ ih => exact ih.mono fun t ht => by simp [ht]
  | _ => trivial

theorem startsDeclaration_not_brace {t : Token} (h : startsDeclaration t) :
    t.isSymbol .rightBrace = false := by
  cases ht : t.isSymbol .rightBrace with
  | false => rfl
  | true =>
    rw [Token.isSymbol_iff] at ht
    simp [startsDeclaration, startsExpression, startsOperand, startsKeywordStatement,
      isPrefixOperator, Token.isSymbol, Token.isKeyword, ht] at h

theorem startsStatement_not_declaration {t : Token}
    (h : startsExpression t || startsKeywordStatement t) :
    t.isKeyword .class_ = false ∧ t.isKeyword .var_ = false := by
  constructor
  all_goals
    rw [← Bool.not_eq_true, Token.isKeyword_iff]
    intro ht
    simp [startsExpression, startsOperand, startsKeywordStatement, isPrefixOperator,
      Token.isSymbol, ht] at h

/-! ### Ends -/

def Rule.isNullable : Rule → Bool
  | .operands _ _ | .suffixes | .declarations | .methods | .optional _ => true
  | _ => false

theorem Derives.length_le {rule : Rule} {l : Bool} {ts rest : List Token} {t : rule.Tree}
    (h : Derives rule l ts t rest) :
    rest.length + (if rule.isNullable then 0 else 1) ≤ ts.length := by
  induction h <;> simp_all [Rule.isNullable] <;> omega

theorem Derives.length_lt {rule : Rule} {l : Bool} {ts rest : List Token} {t : rule.Tree}
    (h : Derives rule l ts t rest) (hr : rule.isNullable = false) : rest.length < ts.length := by
  have := h.length_le
  simp [hr] at this
  omega

/-- The first token, if there is one, does not satisfy `p`. -/
def Stops (p : Token → Bool) (ts : List Token) : Prop :=
  ∀ t ∈ ts.head?, p t = false

theorem Stops.mono {p q : Token → Bool} {ts : List Token} (h : Stops p ts)
    (hq : ∀ t, q t → p t) : Stops q ts := by
  intro t ht
  have hp := h t ht
  cases hqt : q t with
  | false => rfl
  | true => rw [← hp, hq t hqt]

theorem Stops.or {p q : Token → Bool} {ts : List Token} (h : Stops (fun t => p t || q t) ts) :
    Stops p ts ∧ Stops q ts :=
  ⟨h.mono fun t ht => by simp [ht], h.mono fun t ht => by simp [ht]⟩

theorem stops_cons {p : Token → Bool} {t : Token} {rest : List Token} (h : p t = false) :
    Stops p (t :: rest) := by
  intro t' ht
  cases ht
  exact h

theorem stops_false (ts : List Token) : Stops (fun _ => false) ts := fun _ _ => rfl

def continuesCall (t : Token) : Bool :=
  t.isSymbol .leftParen || t.isSymbol .leftBracket || t.isSymbol .dot

def continuesUnary (t : Token) : Bool :=
  continuesCall t || isPostfixOperator t

def continuesBinary (levels : List Level) (t : Token) : Bool :=
  continuesUnary t || levels.any fun level => level.hasOperator t

def continuesTernary (t : Token) : Bool :=
  continuesBinary Level.all t || t.isSymbol .question

def continuesExpression (t : Token) : Bool :=
  continuesTernary t || t.isSymbol .equal

/-- The tokens that a production of the rule takes if they follow a phrase. -/
def Rule.continuedBy : Rule → Token → Bool
  | .suffixes | .call => continuesCall
  | .unary => continuesUnary
  | .binary levels => continuesBinary levels
  | .operands level tighter => continuesBinary (level :: tighter)
  | .ternary => continuesTernary
  | .expression | .optional _ => continuesExpression
  | .argumentList _ | .bindings => fun t => continuesExpression t || t.isSymbol .comma
  | .parameters _ => Token.isSymbol .comma
  | .statement short | .declaration short => fun t => short && t.isKeyword .else_
  | .declarations | .methods => fun t => !t.isSymbol .rightBrace
  | _ => fun _ => false

/-- Symbols that end an expression or a list of them. -/
def closesExpression (s : Symbol) : Bool :=
  s ∈ [.rightParen, .rightBracket, .semicolon, .colon]

/-- Such a symbol continues no expression, and no expression begins with it. -/
theorem stops_of_closesExpression {s : Symbol} {t : Token} (h : t.isSymbol s)
    (hs : closesExpression s) :
    (continuesExpression t || t.isSymbol .comma) = false ∧ startsExpression t = false := by
  rw [Token.isSymbol_iff] at h
  simp only [closesExpression, List.mem_cons, List.not_mem_nil, or_false, decide_eq_true_eq] at hs
  rcases hs with rfl | rfl | rfl | rfl <;>
    simp [continuesExpression, continuesTernary, continuesBinary, continuesUnary, continuesCall,
      startsExpression, startsOperand, isPrefixOperator, isPostfixOperator, Level.all,
      Level.hasOperator, Token.isSymbol, h]

theorem stops_closedList {s : Symbol} {t : Token} {rest : List Token} (h : t.isSymbol s)
    (hs : closesExpression s) :
    Stops (fun t => continuesExpression t || t.isSymbol .comma) (t :: rest) :=
  stops_cons (stops_of_closesExpression h hs).1

theorem stops_closed {s : Symbol} {t : Token} {rest : List Token} (h : t.isSymbol s)
    (hs : closesExpression s) : Stops continuesExpression (t :: rest) :=
  (stops_closedList h hs).or.1

theorem stops_comma {t : Token} {rest : List Token} (h : t.isSymbol .comma) :
    Stops continuesExpression (t :: rest) := by
  rw [Token.isSymbol_iff] at h
  refine stops_cons ?_
  simp [continuesExpression, continuesTernary, continuesBinary, continuesUnary, continuesCall,
    isPostfixOperator, Level.all, Level.hasOperator, Token.isSymbol, h]

theorem startsExpression_not_closed {s : Symbol} {t : Token} (h : startsExpression t)
    (hs : closesExpression s) : t.isSymbol s = false := by
  cases ht : t.isSymbol s with
  | false => rfl
  | true => rw [← h, (stops_of_closesExpression ht hs).2]

theorem stops_question {t : Token} {rest : List Token} (h : t.isSymbol .question) :
    Stops (continuesBinary Level.all) (t :: rest) := by
  rw [Token.isSymbol_iff] at h
  refine stops_cons ?_
  simp [continuesBinary, continuesUnary, continuesCall, isPostfixOperator, Level.all,
    Level.hasOperator, Token.isSymbol, h]

theorem stops_equal {t : Token} {rest : List Token} (h : t.isSymbol .equal) :
    Stops continuesTernary (t :: rest) := by
  rw [Token.isSymbol_iff] at h
  refine stops_cons ?_
  simp [continuesTernary, continuesBinary, continuesUnary, continuesCall, isPostfixOperator,
    Level.all, Level.hasOperator, Token.isSymbol, h]

theorem stops_postfixOperator {t : Token} {rest : List Token} (h : isPostfixOperator t) :
    Stops continuesCall (t :: rest) := by
  refine stops_cons ?_
  simp only [isPostfixOperator, Bool.or_eq_true, Token.isSymbol_iff] at h
  rcases h with h | h <;> simp [continuesCall, Token.isSymbol, h]

theorem Level.hasOperator_unique {level level' : Level} {t : Token} (h : level.hasOperator t)
    (h' : level'.hasOperator t) : level = level' := by
  obtain ⟨kind, lexeme, line⟩ := t
  cases kind with
  | symbol s => cases level <;> cases level' <;> cases s <;> simp_all [hasOperator]
  | keyword k => cases level <;> cases level' <;> cases k <;> simp_all [hasOperator]
  | _ => cases level <;> simp [hasOperator] at h

theorem Level.hasOperator_stops {level : Level} {t : Token} (h : level.hasOperator t) :
    continuesUnary t = false := by
  obtain ⟨kind, lexeme, line⟩ := t
  cases kind with
  | symbol s =>
    cases level <;> cases s <;>
      simp_all [hasOperator, continuesUnary, continuesCall, isPostfixOperator, Token.isSymbol]
  | _ => simp [continuesUnary, continuesCall, isPostfixOperator, Token.isSymbol]

theorem continuesBinary_cons {level : Level} {tighter : List Level} {t : Token}
    (h : continuesBinary tighter t) : continuesBinary (level :: tighter) t := by
  simp only [continuesBinary, List.any_cons, Bool.or_eq_true] at h ⊢
  rcases h with h | h
  · exact .inl h
  · exact .inr (.inr h)

/-- Operators of a level do not continue what stands between them. -/
theorem Derives.stops_of_operands {level : Level} {tighter : List Level} {l : Bool}
    {ts rest : List Token} {more : List (Token × Expr)}
    (h : Derives (.operands level tighter) l ts more rest) (hlevel : level ∉ tighter)
    (hs : Stops (continuesBinary (level :: tighter)) rest) : Stops (continuesBinary tighter) ts := by
  cases h with
  | noOperand => exact hs.mono fun _ => continuesBinary_cons
  | operand ho =>
    refine stops_cons ?_
    rw [continuesBinary, Level.hasOperator_stops ho, Bool.false_or, List.any_eq_false]
    intro level' hmem ho'
    exact hlevel (Level.hasOperator_unique ho ho' ▸ hmem)

/-- What can only be a closing brace is no `else`. -/
theorem Stops.noElse {rest : List Token} (hs : Stops (fun t => !t.isSymbol .rightBrace) rest) :
    Stops (Token.isKeyword .else_) rest := by
  refine hs.mono fun t ht => ?_
  have hk := Token.isKeyword_iff.1 ht
  simp [Token.isSymbol, hk]

/-- A declaration does not begin with `else`, so neither do several of them with what follows. -/
theorem Derives.stops_of_declarations {l : Bool} {ts rest : List Token} {ss : List Stmt}
    (h : Derives .declarations l ts ss rest) (hs : Stops (Token.isKeyword .else_) rest) :
    Stops (Token.isKeyword .else_) ts := by
  cases h with
  | noDeclaration => exact hs
  | nextDeclaration h =>
    obtain ⟨t, rest, rfl, ht⟩ := h.starts
    refine stops_cons ?_
    cases he : t.isKeyword .else_ with
    | false => rfl
    | true =>
      rw [Token.isKeyword_iff] at he
      simp [startsDeclaration, startsExpression, startsOperand, startsKeywordStatement,
        isPrefixOperator, Token.isSymbol, Token.isKeyword, he] at ht

/-- Only an `else` can continue a declaration. -/
theorem Stops.continuesDeclaration {ts : List Token} (short : Bool)
    (hs : Stops (Token.isKeyword .else_) ts) : Stops (Rule.declaration short).continuedBy ts := by
  refine hs.mono fun t ht => ?_
  simp only [Rule.continuedBy, Bool.and_eq_true] at ht
  exact ht.2

end TreeWalk
