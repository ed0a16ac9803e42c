import TreeWalk.Proofs.Extension
import TreeWalk.Proofs.Positions

/-!
# Expressions by themselves

An expression can be read by itself, up to the end of the source, or as a statement of a program, up to
a semicolon. The tokens are read alike, but a program reports the faults that were noted in the bodies
of lambdas, and an expression by itself does not: it is the program's one statement exactly if no fault
was noted (`parseProgram_iff_parseExpression`).
-/

namespace TreeWalk

open Production

namespace Production

variable {α β : Type} {c c' : Cursor} {e : Expr} {fuel : Nat}

/-! ### Beginnings of expressions -/

theorem startsOperand_of_behind {t : Token} {p : Production Expr}
    (h : operandBehind fuel t = some p) : startsOperand t := by
  unfold operandBehind at h
  unfold startsOperand
  split at h <;> simp_all

theorem begins_primary (h : primary fuel c = .done e c') : Begins startsOperand c.rest := by
  cases fuel with
  | zero => cases h
  | succ fuel =>
    rw [primary_eq_look] at h
    obtain ⟨_ | ⟨t, rest⟩, endLine, loops, faults, n⟩ := c
    · cases h
    · simp only [look] at h
      split at h
      · next p hp =>
        refine ⟨t, rest, rfl, startsOperand_of_behind hp, fun hf => ?_⟩
        rw [operandBehind, Token.isKeyword_iff.1 hf] at hp
        cases hp
        obtain ⟨paren, c₁, h₁, -⟩ := bind_done h
        obtain ⟨hparen, hc₁⟩ := expect_done h₁
        cases hc₁
        exact ⟨paren, _, rfl, hparen⟩
      · cases h

theorem begins_unary (h : unary fuel c = .done e c') : Begins startsExpression c.rest := by
  cases fuel with
  | zero => cases h
  | succ fuel =>
    rw [unary] at h
    obtain ⟨o, c₁, ho, h₁⟩ := bind_done h
    obtain ⟨rfl, -, rfl⟩ | ⟨operator, rfl, hoperator, rfl⟩ := accept?_done ho
    · obtain ⟨operand, c₂, hoperand, -⟩ := bind_done h₁
      exact (begins_primary hoperand).mono fun _ => startsExpression_of_operand
    · refine ⟨operator, _, rfl, by simp [startsExpression, hoperator], fun hf => ?_⟩
      rw [Token.isKeyword_iff] at hf
      simp [isPrefixOperator, Token.isSymbol, hf] at hoperator

theorem begins_binary {levels : List Level} (h : binary fuel levels c = .done e c') :
    Begins startsExpression c.rest := by
  induction fuel generalizing levels e c' with
  | zero => cases h
  | succ fuel ih =>
    cases levels with
    | nil =>
      rw [binary] at h
      exact begins_unary h
    | cons level tighter =>
      rw [binary] at h
      obtain ⟨left, c₁, hleft, -⟩ := bind_done h
      exact ih hleft

theorem begins_expression (h : expression fuel c = .done e c') :
    Begins startsExpression c.rest := by
  cases fuel with
  | zero => cases h
  | succ fuel =>
    rw [expression] at h
    obtain ⟨target, c₁, htarget, -⟩ := bind_done h
    cases fuel with
    | zero => cases htarget
    | succ fuel =>
      rw [ternary] at htarget
      obtain ⟨condition, c₂, hcondition, -⟩ := bind_done htarget
      exact begins_binary hcondition

theorem begins_append {starts : Token → Bool} {ts : List Token} (h : Begins starts ts)
    (more : List Token) : Begins starts (ts ++ more) := by
  obtain ⟨t, rest, rfl, ht, hlambda⟩ := h
  refine ⟨t, rest ++ more, rfl, ht, fun hf => ?_⟩
  obtain ⟨paren, rest', rfl, hparen⟩ := hlambda hf
  exact ⟨paren, rest' ++ more, rfl, hparen⟩

/-! ### Expression statements -/

theorem bind_of_done {p : Production α} {f : α → Production β} {a : α} (h : p c = .done a c') :
    (p >>= f) c = f a c' := by
  show Production.bind p f c = f a c'
  rw [Production.bind, h]

theorem accept?_of_not {q : Token → Bool} (h : c.sees q = false) : accept? q c = .done none c := by
  obtain ⟨_ | ⟨t, rest⟩, endLine, loops, faults, n⟩ := c
  · rfl
  · change q t = false at h
    simp [accept?, h]

/-- Where an expression begins, a declaration is an expression statement. -/
theorem declaration_of_begins (h : Begins startsExpression c.rest) :
    declaration (fuel + 3) c = expressionStatement (fuel + 1) c := by
  obtain ⟨t, rest, hrest, ht, hlambda⟩ := h
  obtain ⟨hclass, hvar⟩ := startsStatement_not_declaration (t := t) (by simp [ht])
  have hsees : ∀ q : Token → Bool, c.sees q = q t := fun q => by rw [Cursor.sees, hrest]
  have hstarts : startsFunction c = .done false c := by
    unfold startsFunction
    congr 1
    rw [hsees]
    by_cases hf : t.isKeyword .fun_
    · obtain ⟨paren, rest', rfl, hparen⟩ := hlambda hf
      simp [Cursor.seesSecond, hrest, Token.isIdentifier, Token.isSymbol_iff.1 hparen]
    · simp [hf]
  have hclass' : keyword? .class_ c = .done none c := accept?_of_not (by rw [hsees]; exact hclass)
  have hvar' : keyword? .var_ c = .done none c := accept?_of_not (by rw [hsees]; exact hvar)
  have hbehind : statementBehind (fuel + 1) t = none := by
    unfold statementBehind
    split <;>
      first
      | rfl
      | next hk => simp [startsExpression, startsOperand, isPrefixOperator, Token.isSymbol, hk] at ht
  have hstatement : statement (fuel + 2) c = expressionStatement (fuel + 1) c := by
    rw [statement_eq_look]
    unfold look
    rw [hrest]
    simp only [hbehind]
  rw [declaration]
  exact (bind_of_done hclass').trans ((bind_of_done hstarts).trans
    ((bind_of_done hvar').trans hstatement))

variable {semicolon : Token}

/-- The last semicolon belongs to an expression statement, and the tokens before it are the expression. -/
theorem expressionStatement_extend (hs : semicolon.isSymbol .semicolon) (hrest : c'.rest = [])
    (fuel : Nat) :
    expressionStatement (fuel + 1) (c.extend [semicolon]) = .done (.expression e) c' ↔
      expression fuel c = .done e c' := by
  rw [((allClosed hs fuel).expression).done_iff, expressionStatement]
  constructor
  · intro h
    obtain ⟨e', c₁, he, h₁⟩ := bind_done h
    obtain ⟨t, c₂, ht, h₂⟩ := bind_done h₁
    obtain ⟨hs', rfl⟩ := pure_done h₂
    cases hs'
    obtain ⟨-, rfl⟩ := expect_done ht
    have hsuffix := ((allSteady fuel).expression.of_done he).rest
    rw [hrest] at hsuffix
    -- Nothing is left behind the token that was taken, and the semicolon is the last one.
    have hlast : [t] = [semicolon] :=
      (List.suffix_of_suffix_length_le hsuffix (List.suffix_append c.rest [semicolon])
        (Nat.le_refl _)).eq_of_length rfl
    rw [he, hrest, hlast, Cursor.extend, hrest]
    rfl
  · intro h
    refine (bind_of_done h).trans ?_
    have hsymbol : symbol .semicolon .endOfStatement (c'.extend [semicolon]) = .done semicolon c' := by
      obtain ⟨rest, endLine, loops, faults, n⟩ := c'
      subst hrest
      simp [symbol, expect, Cursor.extend, hs]
    exact bind_of_done hsymbol

end Production

/-! ### The two ways of reading -/

variable {ts : List Token} {eof semicolon : Token} {n m : Nat} {e : Expr} {c c' : Cursor}

/-- The faults that were noted while an expression was read by itself. -/
def notedFaults (tokens : List Token) (n : Nat) : List SyntaxFault :=
  let c := Cursor.start tokens n
  (expression c.fuel c).after.faults

theorem parseExpression_eq_ok {tokens : List Token} : parseExpression tokens n = (.ok e, m) ↔
    ∃ c', expression (Cursor.start tokens n).fuel (Cursor.start tokens n) = .done e c' ∧
      c'.rest = [] ∧ c'.nextReference = m := by
  unfold parseExpression
  dsimp only
  cases expression (Cursor.start tokens n).fuel (Cursor.start tokens n) with
  | done e' c' =>
    by_cases hrest : c'.rest = []
    · show (if c'.rest.isEmpty then _ else _) = _ ↔ _
      rw [if_pos (List.isEmpty_iff.2 hrest)]
      constructor
      · intro h
        cases h
        exact ⟨c', rfl, hrest, rfl⟩
      · rintro ⟨c'', h, -, rfl⟩
        cases h
        rfl
    · show (if c'.rest.isEmpty then _ else _) = _ ↔ _
      rw [if_neg fun hempty => hrest (List.isEmpty_iff.1 hempty)]
      constructor
      · intro h
        cases h
      · rintro ⟨c'', h, hnil, -⟩
        cases h
        exact absurd hnil hrest
  | failed fault c' =>
    constructor
    · intro h
      cases h
    · rintro ⟨c'', h, -⟩
      cases h

theorem Terminated.start_eq (h : Terminated ts eof) (n : Nat) :
    Cursor.start (ts ++ [eof]) n = ⟨ts, eof.line, 0, [], n⟩ := by
  have hrest := h.start n
  have hfind : (ts ++ [eof]).find? Token.isEnd = some eof := by
    have hnone : ts.find? Token.isEnd = none :=
      List.find?_eq_none.2 fun t ht => by simp [h.others t ht]
    simp [List.find?_append, hnone, h.isEnd]
  have htake : (ts ++ [eof]).takeWhile (fun t => !t.isEnd) = ts := hrest
  rw [Cursor.start, htake, hfind]

theorem Terminated.extend (h : Terminated ts eof) (hs : semicolon.isSymbol .semicolon) :
    Terminated (ts ++ [semicolon]) eof := by
  refine ⟨h.isEnd, List.forall_mem_append.2 ⟨h.others, ?_⟩⟩
  intro t ht
  rw [List.mem_singleton.1 ht]
  simp [Token.isEnd, Token.isSymbol_iff.1 hs]

theorem Terminated.start_extend (h : Terminated ts eof) (hs : semicolon.isSymbol .semicolon)
    (n : Nat) : Cursor.start (ts ++ [semicolon, eof]) n =
      (Cursor.start (ts ++ [eof]) n).extend [semicolon] := by
  have hsplit : ts ++ [semicolon, eof] = (ts ++ [semicolon]) ++ [eof] := by simp
  rw [hsplit, (h.extend hs).start_eq, h.start_eq]
  rfl

/-- With more fuel than the cursor asks for, an expression statement is a declaration. -/
theorem declaration_extend (hs : semicolon.isSymbol .semicolon) (hrest : c'.rest = [])
    (hbegins : Begins startsExpression (c.extend [semicolon]).rest) :
    declaration (c.extend [semicolon]).fuel (c.extend [semicolon]) = .done (.expression e) c' ↔
      expression c.fuel c = .done e c' := by
  have hfuel : (c.extend [semicolon]).fuel = (c.fuel + 13) + 3 := by
    simp only [Cursor.fuel, Cursor.extend, List.length_append, List.length_singleton]
    omega
  rw [hfuel, declaration_of_begins hbegins, expressionStatement_extend hs hrest,
    expression_of_fuel_le (Nat.le_add_right _ _)]

/-- The semicolon makes one item of an expression that all tokens spell. -/
theorem next?_of_expression (hs : semicolon.isSymbol .semicolon)
    (h : expression c.fuel c = .done e c') (hrest : c'.rest = []) :
    (c'.faults = [] → (c.extend [semicolon]).next? = some (.ok (.expression e), c')) ∧
    ∀ r : Rejection, c'.faults = r.toList →
      (c.extend [semicolon]).next? = some (.error r, { c' with faults := [] }) := by
  have hbegins : Begins startsExpression (c.extend [semicolon]).rest :=
    begins_append (begins_expression h) [semicolon]
  have hdone := (declaration_extend hs hrest hbegins).2 h
  have hne : (c.extend [semicolon]).rest.isEmpty = false := by simp [Cursor.extend]
  rw [Cursor.next?, hne, hdone]
  constructor
  · intro hfaults
    simp only [Bool.false_eq_true, if_false, hfaults]
  · rintro ⟨f, fs⟩ hfaults
    have hcons : c'.faults = f :: fs := hfaults
    simp only [Bool.false_eq_true, if_false, hcons]

/-- A declaration that is an expression statement begins like the expression. -/
theorem Derives.begins_of_expression {short l : Bool} {rest : List Token} {s : Stmt}
    (d : Derives (.declaration short) l ts s rest) (hs : s = .expression e) :
    Begins startsExpression ts := by
  cases d with
  | classDecl => cases hs
  | functionDecl => cases hs
  | varDecl _ d =>
    cases d
    cases hs
  | statementDecl d =>
    cases d with
    | expressionStatement d => exact d.starts
    | @forStatement _ _ _ _ _ first =>
      cases first <;> cases hs
    | _ => cases hs

/-- An item that is an expression, with nothing behind it. -/
theorem expression_of_next? (hs : semicolon.isSymbol .semicolon) (hc : c.Clean 0)
    (h : (c.extend [semicolon]).next? = some (.ok (.expression e), c')) (hrest : c'.rest = []) :
    expression c.fuel c = .done e c' ∧ c'.faults = [] := by
  obtain ⟨⟨short, hread⟩, hc'⟩ := Cursor.next?_ok h hc
  have hbegins : Begins startsExpression (c.extend [semicolon]).rest :=
    hread.derives.begins_of_expression (by rw [Stmt.erase])
  obtain ⟨-, ⟨s, c₁, hdone, hc₁, ⟨hfaults, hs'⟩ | ⟨r, -, hr⟩⟩ | ⟨fault, c₁, r, -, -, -, hr⟩⟩ :=
    Cursor.next?_cases h
  · cases hs'
    have hsame : c' = c₁ := by rw [hc₁, ← hfaults]
    subst hsame
    exact ⟨(declaration_extend hs hrest hbegins).1 hdone, hfaults⟩
  · cases hr
  · cases hr

/-! ### Programs of one declaration -/

theorem Cursor.items_eq_nil {count : Nat} (h : (c.items count).1 = []) : (c.items count).2 = c := by
  cases count with
  | zero => rfl
  | succ count =>
    rw [Cursor.items] at h ⊢
    split at h
    · rfl
    · cases h

theorem collect_eq_nil {items : List (Except Rejection Stmt)} (h : collect items = .ok []) :
    items = [] := by
  cases items with
  | nil => rfl
  | cons item items =>
    obtain ⟨s, ss, -, -, hss⟩ := collect_cons_ok h
    cases hss

/-- A program that is one item. -/
theorem parseProgram_of_next? {tokens : List Token} {item : Except Rejection Stmt}
    (h : (Cursor.start tokens n).next? = some (item, c')) (hrest : c'.rest = []) :
    parseProgram tokens n = (collect [item], c'.nextReference) := by
  have hlen := Cursor.start_length_le tokens n
  have hlt := Cursor.next?_length_lt h
  obtain ⟨count, hcount⟩ : ∃ k, tokens.length = k + 1 := ⟨tokens.length - 1, by omega⟩
  have hnil : c'.items count = ([], c') := by
    cases count with
    | zero => rfl
    | succ count => rw [Cursor.items, Cursor.next?_eq_none hrest]
  rw [parseProgram, parseItems, hcount, Cursor.items, h]
  simp only [hnil]

theorem next?_of_parseProgram {tokens : List Token} {s : Stmt}
    (h : parseProgram tokens n = (.ok [s], m)) : ∃ c',
      (Cursor.start tokens n).next? = some (.ok s, c') ∧ c'.rest = [] ∧ c'.nextReference = m := by
  have hlen := Cursor.start_length_le tokens n
  rw [parseProgram, parseItems] at h
  cases hcount : tokens.length with
  | zero =>
    rw [hcount] at h
    cases h
  | succ count =>
    rw [hcount, Cursor.items] at h
    cases hnext : (Cursor.start tokens n).next? with
    | none =>
      rw [hnext] at h
      cases h
    | some next =>
      obtain ⟨item, c'⟩ := next
      rw [hnext] at h
      obtain ⟨hcollect, rfl⟩ := Prod.mk.inj h
      obtain ⟨s', ss, rfl, hss, hcons⟩ := collect_cons_ok hcollect
      cases hcons
      have hnil := Cursor.items_eq_nil (collect_eq_nil hss)
      have hlt := Cursor.next?_length_lt hnext
      have hrest : (c'.items count).2.rest = [] := Cursor.items_rest (by omega)
      rw [hnil] at hrest
      exact ⟨c', rfl, hrest, by rw [hnil]⟩

/-- An expression by itself is a program of one statement if no fault was noted in it. Otherwise the
program is rejected, with the faults that were noted. -/
theorem parseProgram_iff_parseExpression (h : Terminated ts eof) (hs : semicolon.isSymbol .semicolon)
    (n m : Nat) (e : Expr) :
    (parseProgram (ts ++ [semicolon, eof]) n = (.ok [.expression e], m) ↔
      parseExpression (ts ++ [eof]) n = (.ok e, m) ∧ notedFaults (ts ++ [eof]) n = []) ∧
    ∀ r : Rejection, parseExpression (ts ++ [eof]) n = (.ok e, m) →
      notedFaults (ts ++ [eof]) n = r.toList →
        parseProgram (ts ++ [semicolon, eof]) n = (.error r, m) := by
  have hstart := h.start_extend hs n
  have hnoted : ∀ {c'}, expression (Cursor.start (ts ++ [eof]) n).fuel
      (Cursor.start (ts ++ [eof]) n) = .done e c' → notedFaults (ts ++ [eof]) n = c'.faults := by
    intro c' hdone
    rw [notedFaults, hdone]
    rfl
  refine ⟨⟨fun hprogram => ?_, fun ⟨hexpression, hfaults⟩ => ?_⟩, fun r hexpression hfaults => ?_⟩
  · obtain ⟨c', hnext, hrest, rfl⟩ := next?_of_parseProgram hprogram
    rw [hstart] at hnext
    obtain ⟨hdone, hfaults⟩ := expression_of_next? hs (clean_start _ n) hnext hrest
    exact ⟨parseExpression_eq_ok.2 ⟨c', hdone, hrest, rfl⟩, (hnoted hdone).trans hfaults⟩
  · obtain ⟨c', hdone, hrest, rfl⟩ := parseExpression_eq_ok.1 hexpression
    rw [hnoted hdone] at hfaults
    have hnext := (next?_of_expression hs hdone hrest).1 hfaults
    rw [← hstart] at hnext
    exact parseProgram_of_next? hnext hrest
  · obtain ⟨c', hdone, hrest, rfl⟩ := parseExpression_eq_ok.1 hexpression
    rw [hnoted hdone] at hfaults
    have hnext := (next?_of_expression hs hdone hrest).2 r hfaults
    rw [← hstart] at hnext
    exact parseProgram_of_next? hnext hrest

/-- The tokens of `fun () \x7bvar ;\x7d`. -/
def faultyLambda : List Token :=
  [⟨.keyword .fun_, "fun", 1⟩, ⟨.symbol .leftParen, "(", 1⟩, ⟨.symbol .rightParen, ")", 1⟩,
    ⟨.symbol .leftBrace, "\x7b", 1⟩, ⟨.keyword .var_, "var", 1⟩, ⟨.symbol .semicolon, ";", 1⟩,
    ⟨.symbol .rightBrace, "\x7d", 1⟩]

/-- What is left of it without the declaration at fault. -/
def emptyLambda : Expr :=
  .lambda ⟨none, [], [], ⟨.keyword .fun_, "fun", 1⟩⟩

/-- The fault was noted, and reported by the program only. -/
theorem parseExpression_faultyLambda :
    parseExpression (faultyLambda ++ [Token.endOn 1]) 0 = (.ok emptyLambda, 0) ∧
      notedFaults (faultyLambda ++ [Token.endOn 1]) 0 =
        [⟨.expected .variableName, ⟨1, some ";"⟩⟩] := by
  constructor <;> cbv

theorem parseProgram_faultyLambda :
    (Terminated faultyLambda (Token.endOn 1) ∧
      (⟨.symbol .semicolon, ";", 1⟩ : Token).isSymbol .semicolon) ∧
    parseProgram (faultyLambda ++ [⟨.symbol .semicolon, ";", 1⟩, Token.endOn 1]) 0 =
      (.error ⟨⟨.expected .variableName, ⟨1, some ";"⟩⟩, []⟩, 0) := by
  have h : Terminated faultyLambda (Token.endOn 1) := ⟨rfl, by decide⟩
  have hs : (⟨.symbol .semicolon, ";", 1⟩ : Token).isSymbol .semicolon := rfl
  obtain ⟨hexpression, hfaults⟩ := parseExpression_faultyLambda
  exact ⟨⟨h, hs⟩, (parseProgram_iff_parseExpression h hs 0 0 emptyLambda).2 _ hexpression hfaults⟩

/-- The expression is accepted by itself, but not as a program. -/
theorem expression_with_fault :
    Terminated faultyLambda (Token.endOn 1) ∧
    (parseExpression (faultyLambda ++ [Token.endOn 1]) 0).1 = .ok emptyLambda ∧
    ∀ e m, parseProgram (faultyLambda ++ [⟨.symbol .semicolon, ";", 1⟩, Token.endOn 1]) 0 ≠
      (.ok [.expression e], m) := by
  have hprogram : (parseProgram (faultyLambda ++ [⟨.symbol .semicolon, ";", 1⟩, Token.endOn 1]) 0).1 =
      .error ⟨⟨.expected .variableName, ⟨1, some ";"⟩⟩, []⟩ := by
    cbv
  refine ⟨⟨rfl, by decide⟩, by rw [parseExpression_faultyLambda.1], fun e m h => ?_⟩
  rw [h] at hprogram
  cases hprogram

end TreeWalk
