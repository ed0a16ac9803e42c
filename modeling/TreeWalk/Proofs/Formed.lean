import TreeWalk.Proofs.Program
import TreeWalk.Proofs.Visits

/-!
# What the grammar rules out

The walk over scopes and the machine both rely on what only the grammar ensures: the branch of an
`if` and the body of a loop declare nothing, and `break` and `continue` stand inside of a loop. A
tree with these two properties is *formed*. Every program that is read is formed, and so is
everything that the walk visits in it.
-/

namespace TreeWalk

/-- A statement that declares no name. -/
def Stmt.isBranch : Stmt → Bool
  | .var _ | .function _ | .classDecl _ _ => false
  | _ => true

mutual

def Expr.isFormed : Expr → Bool
  | .literal _ | .variable _ _ | .this _ _ => true
  | .group inner => inner.isFormed
  | .unary _ operand _ => operand.isFormed
  | .binary left _ right => left.isFormed && right.isFormed
  | .logical left _ right => left.isFormed && right.isFormed
  | .ternary condition whenTrue whenFalse =>
    condition.isFormed && (whenTrue.isFormed && whenFalse.isFormed)
  | .assign _ _ value => value.isFormed
  | .call callee _ arguments => callee.isFormed && areFormed arguments
  | .array _ elements => areFormed elements
  | .index collection _ position => collection.isFormed && position.isFormed
  | .get object _ => object.isFormed
  | .set object _ value => object.isFormed && value.isFormed
  | .lambda function => function.isFormed

def areFormed : List Expr → Bool
  | [] => true
  | e :: rest => e.isFormed && areFormed rest

def FunctionDecl.isFormed : FunctionDecl → Bool
  | ⟨_, _, body, _⟩ => stmtsFormed false body

/-- A statement in a loop of the function at hand, or not. -/
def Stmt.isFormed : (inLoop : Bool) → Stmt → Bool
  | inLoop, .block body => stmtsFormed inLoop body
  | _, .expression value => value.isFormed
  | _, .print value => value.isFormed
  | _, .var bindings => bindingsFormed bindings
  | _, .function decl => decl.isFormed
  | _, .classDecl _ methods => methodsFormed methods
  | inLoop, .conditional condition whenTrue none =>
    condition.isFormed && (whenTrue.isBranch && whenTrue.isFormed inLoop)
  | inLoop, .conditional condition whenTrue (some whenFalse) =>
    condition.isFormed && ((whenTrue.isBranch && whenTrue.isFormed inLoop) &&
      (whenFalse.isBranch && whenFalse.isFormed inLoop))
  | _, .loop condition body none => condition.isFormed && (body.isBranch && body.isFormed true)
  | _, .loop condition body (some increment) =>
    condition.isFormed && ((body.isBranch && body.isFormed true) && increment.isFormed)
  | _, .returning _ none => true
  | _, .returning _ (some value) => value.isFormed
  | inLoop, .breaking _ => inLoop
  | inLoop, .continuing _ => inLoop

def stmtsFormed : (inLoop : Bool) → List Stmt → Bool
  | _, [] => true
  | inLoop, s :: rest => s.isFormed inLoop && stmtsFormed inLoop rest

def bindingsFormed : List (Token × Option Expr) → Bool
  | [] => true
  | (_, none) :: rest => bindingsFormed rest
  | (_, some value) :: rest => value.isFormed && bindingsFormed rest

def methodsFormed : List FunctionDecl → Bool
  | [] => true
  | f :: rest => f.isFormed && methodsFormed rest

end

theorem Stmt.isBranch_erase (s : Stmt) : s.erase.isBranch = s.isBranch := by
  cases s with
  | conditional _ _ whenFalse => cases whenFalse <;> simp [Stmt.erase, Stmt.isBranch]
  | loop _ _ increment => cases increment <;> simp [Stmt.erase, Stmt.isBranch]
  | returning _ value => cases value <;> simp [Stmt.erase, Stmt.isBranch]
  | _ => simp [Stmt.erase, Stmt.isBranch]

/-! ### References do not matter -/

mutual

theorem Expr.isFormed_erase (e : Expr) : e.erase.isFormed = e.isFormed := by
  cases e with
  | literal | «variable» | this => simp [Expr.erase, Expr.isFormed]
  | group e | unary _ e _ | get e _ | assign _ _ e =>
    simp only [Expr.erase, Expr.isFormed, e.isFormed_erase]
  | binary left _ right | logical left _ right | index left _ right | set left _ right =>
    simp only [Expr.erase, Expr.isFormed, left.isFormed_erase, right.isFormed_erase]
  | ternary condition whenTrue whenFalse =>
    simp only [Expr.erase, Expr.isFormed, condition.isFormed_erase, whenTrue.isFormed_erase,
      whenFalse.isFormed_erase]
  | call callee _ arguments =>
    simp only [Expr.erase, Expr.isFormed, callee.isFormed_erase, areFormed_erase arguments]
  | array _ elements => simp only [Expr.erase, Expr.isFormed, areFormed_erase elements]
  | lambda function => simp only [Expr.erase, Expr.isFormed, function.isFormed_erase]

theorem areFormed_erase (es : List Expr) : areFormed (eraseExprs es) = areFormed es := by
  cases es with
  | nil => simp only [eraseExprs]
  | cons e es => simp only [eraseExprs, areFormed, e.isFormed_erase, areFormed_erase es]

theorem FunctionDecl.isFormed_erase (decl : FunctionDecl) :
    decl.erase.isFormed = decl.isFormed := by
  obtain ⟨name, parameters, body, keyword⟩ := decl
  simp only [FunctionDecl.erase, FunctionDecl.isFormed, stmtsFormed_erase false body]

theorem Stmt.isFormed_erase (inLoop : Bool) (s : Stmt) :
    s.erase.isFormed inLoop = s.isFormed inLoop := by
  cases s with
  | block body => simp only [Stmt.erase, Stmt.isFormed, stmtsFormed_erase inLoop body]
  | expression value | print value => simp only [Stmt.erase, Stmt.isFormed, value.isFormed_erase]
  | var bindings => simp only [Stmt.erase, Stmt.isFormed, bindingsFormed_erase bindings]
  | function decl => simp only [Stmt.erase, Stmt.isFormed, decl.isFormed_erase]
  | classDecl _ methods => simp only [Stmt.erase, Stmt.isFormed, methodsFormed_erase methods]
  | conditional condition whenTrue whenFalse =>
    cases whenFalse with
    | none =>
      simp only [Stmt.erase, Stmt.isFormed, condition.isFormed_erase, Stmt.isBranch_erase,
        whenTrue.isFormed_erase]
    | some whenFalse =>
      simp only [Stmt.erase, Stmt.isFormed, condition.isFormed_erase, Stmt.isBranch_erase,
        whenTrue.isFormed_erase, whenFalse.isFormed_erase]
  | loop condition body increment =>
    cases increment with
    | none =>
      simp only [Stmt.erase, Stmt.isFormed, condition.isFormed_erase, Stmt.isBranch_erase,
        body.isFormed_erase]
    | some increment =>
      simp only [Stmt.erase, Stmt.isFormed, condition.isFormed_erase, Stmt.isBranch_erase,
        body.isFormed_erase, increment.isFormed_erase]
  | returning _ value =>
    cases value with
    | none => simp only [Stmt.erase]
    | some value => simp only [Stmt.erase, Stmt.isFormed, value.isFormed_erase]
  | breaking | continuing => simp only [Stmt.erase]

theorem stmtsFormed_erase (inLoop : Bool) (ss : List Stmt) :
    stmtsFormed inLoop (eraseStmts ss) = stmtsFormed inLoop ss := by
  cases ss with
  | nil => simp only [eraseStmts]
  | cons s rest =>
    simp only [eraseStmts, stmtsFormed, s.isFormed_erase, stmtsFormed_erase inLoop rest]

theorem bindingsFormed_erase (bs : List (Token × Option Expr)) :
    bindingsFormed (eraseBindings bs) = bindingsFormed bs := by
  cases bs with
  | nil => simp only [eraseBindings]
  | cons b bs =>
    obtain ⟨name, _ | value⟩ := b
    · simp only [eraseBindings, bindingsFormed, bindingsFormed_erase bs]
    · simp only [eraseBindings, bindingsFormed, value.isFormed_erase, bindingsFormed_erase bs]

theorem methodsFormed_erase (decls : List FunctionDecl) :
    methodsFormed (eraseMethods decls) = methodsFormed decls := by
  cases decls with
  | nil => simp only [eraseMethods]
  | cons decl decls =>
    simp only [eraseMethods, methodsFormed, decl.isFormed_erase, methodsFormed_erase decls]

end

/-! ### Phrases are formed -/

def Suffix.isFormed : Suffix → Bool
  | .call _ arguments => areFormed arguments
  | .index _ position => position.isFormed
  | .get _ => true

/-- What the tree of a rule is when it is formed. -/
def Rule.Formed : (rule : Rule) → (inLoop : Bool) → rule.Tree → Prop
  | .expression, _, e | .ternary, _, e | .binary _, _, e | .unary, _, e | .call, _, e
  | .primary, _, e => e.isFormed
  | .operands _ _, _, more => ∀ o ∈ more, o.2.isFormed
  | .suffixes, _, more => ∀ suffix ∈ more, suffix.isFormed
  | .arguments _, _, t => areFormed t.1
  | .argumentList _, _, es => areFormed es
  | .parameters _, _, _ => True
  | .functionTail, _, t => stmtsFormed false t.2
  | .function, _, decl => decl.isFormed
  | .block, inLoop, ss | .declarations, inLoop, ss => stmtsFormed inLoop ss
  | .declaration _, inLoop, s | .varTail, inLoop, s => s.isFormed inLoop
  | .methods, _, decls => methodsFormed decls
  | .bindings, _, bs => bindingsFormed bs
  | .forStart, inLoop, s => ∀ first, s = some first → first.isFormed inLoop
  | .optional _, _, o => ∀ e, o = some e → e.isFormed
  | .statement _, inLoop, s => s.isBranch ∧ s.isFormed inLoop

theorem isFormed_operands {level : Level} {more : List (Token × Expr)} {e : Expr}
    (he : e.isFormed) (hm : ∀ o ∈ more, o.2.isFormed) : (more.foldl level.attach e).isFormed := by
  induction more generalizing e with
  | nil => exact he
  | cons o more ih =>
    obtain ⟨ho, hmore⟩ := List.forall_mem_cons.1 hm
    refine ih ?_ hmore
    cases level <;> simp [Level.attach, Level.node, Expr.isFormed, he, ho]

theorem isFormed_suffixes {more : List Suffix} {e : Expr} (he : e.isFormed)
    (hm : ∀ suffix ∈ more, suffix.isFormed) : (more.foldl Suffix.attach e).isFormed := by
  induction more generalizing e with
  | nil => exact he
  | cons suffix more ih =>
    obtain ⟨hs, hmore⟩ := List.forall_mem_cons.1 hm
    refine ih ?_ hmore
    cases suffix with
    | call paren arguments =>
      have ha : areFormed arguments := hs
      simp [Suffix.attach, Expr.isFormed, he, ha]
    | index bracket position =>
      have hp : position.isFormed := hs
      simp [Suffix.attach, Expr.isFormed, he, hp]
    | get name => simpa [Suffix.attach, Expr.isFormed] using he

theorem isFormed_forLoop {first : Option Stmt} {condition increment : Option Expr} {body : Stmt}
    {inLoop : Bool} (hf : ∀ s, first = some s → s.isFormed inLoop)
    (hc : ∀ e, condition = some e → e.isFormed) (hi : ∀ e, increment = some e → e.isFormed)
    (hb : body.isBranch ∧ body.isFormed true) :
    (forLoop first condition increment body).isBranch ∧
      (forLoop first condition increment body).isFormed inLoop := by
  have hcondition : (condition.getD (.literal (.bool true))).isFormed := by
    cases condition with
    | none => rfl
    | some e => exact hc e rfl
  have hloop : Stmt.isFormed inLoop
      (.loop (condition.getD (.literal (.bool true))) body increment) := by
    cases increment with
    | none => simp [Stmt.isFormed, hcondition, hb]
    | some e => simp [Stmt.isFormed, hcondition, hb, hi e rfl]
  cases first with
  | none => exact ⟨rfl, hloop⟩
  | some s =>
    refine ⟨rfl, ?_⟩
    simp [forLoop, Stmt.isFormed, stmtsFormed, hf s rfl, hloop]

/-- The tree of every phrase is formed. -/
theorem Derives.formed {rule : Rule} {l : Bool} {ts rest : List Token} {t : rule.Tree}
    (h : Derives rule l ts t rest) : rule.Formed l t := by
  induction h with
  | simple _ ih | noChoice _ ih | tightest _ ih | bare _ ih | varDecl _ _ ih => exact ih
  | assign _ _ _ ih => simpa [Rule.Formed, Expr.isFormed] using ih
  | set _ _ _ iht ihv =>
    simp only [Rule.Formed, Expr.isFormed] at iht ihv ⊢
    simp [iht, ihv]
  | choice _ _ _ _ _ ihc iht ihf =>
    simp only [Rule.Formed] at ihc iht ihf
    simp [Rule.Formed, Expr.isFormed, ihc, iht, ihf]
  | level _ _ ihf ihm => exact isFormed_operands ihf ihm
  | noOperand => exact nofun
  | operand _ _ _ ihr ihm => exact List.forall_mem_cons.2 ⟨ihr, ihm⟩
  | before _ _ ih | after _ _ ih => simpa [Rule.Formed, Expr.isFormed] using ih
  | call _ _ ihp ihm => exact isFormed_suffixes ihp ihm
  | noSuffix => exact nofun
  | callSuffix _ _ _ iha ihm => exact List.forall_mem_cons.2 ⟨iha, ihm⟩
  | indexSuffix _ _ _ _ ihp ihm => exact List.forall_mem_cons.2 ⟨ihp, ihm⟩
  | getSuffix _ _ _ ihm => exact List.forall_mem_cons.2 ⟨rfl, ihm⟩
  | falseLiteral | trueLiteral | nilLiteral | number | string | this | name =>
    simp [Rule.Formed, Expr.isFormed]
  | group _ _ _ ih => simpa [Rule.Formed, Expr.isFormed] using ih
  | array _ _ ih => simpa [Rule.Formed, Expr.isFormed] using ih
  | lambda _ _ _ ih => simpa [Rule.Formed, Expr.isFormed, FunctionDecl.isFormed] using ih
  | noArguments => simp [Rule.Formed, areFormed]
  | someArguments _ _ ih => exact ih
  | lastArgument _ ih => simpa [Rule.Formed, areFormed] using ih
  | nextArgument _ _ _ ih ihm =>
    simp only [Rule.Formed] at ih ihm
    simp [Rule.Formed, areFormed, ih, ihm]
  | lastParameter | nextParameter => trivial
  | noParameters _ _ _ ih => exact ih
  | someParameters _ _ _ _ _ ih => exact ih
  | function _ _ _ ih => simpa [Rule.Formed, FunctionDecl.isFormed] using ih
  | block _ _ ih => exact ih
  | noDeclaration => simp [Rule.Formed, stmtsFormed]
  | nextDeclaration _ _ ih ihm =>
    simp only [Rule.Formed] at ih ihm
    simp [Rule.Formed, stmtsFormed, ih, ihm]
  | classDecl _ _ _ _ _ ih => simpa [Rule.Formed, Stmt.isFormed] using ih
  | functionDecl _ _ ih => simpa [Rule.Formed, Stmt.isFormed] using ih
  | statementDecl _ ih => exact ih.2
  | noMethod => simp [Rule.Formed, methodsFormed]
  | nextMethod _ _ ih ihm =>
    simp only [Rule.Formed] at ih ihm
    simp [Rule.Formed, methodsFormed, ih, ihm]
  | varTail _ _ ih => simpa [Rule.Formed, Stmt.isFormed] using ih
  | lastName => simp [Rule.Formed, bindingsFormed]
  | lastValue _ _ _ ih => simpa [Rule.Formed, bindingsFormed] using ih
  | nextName _ _ _ ih => simpa [Rule.Formed, bindingsFormed] using ih
  | nextValue _ _ _ _ _ ihv ihm =>
    simp only [Rule.Formed] at ihv ihm
    simp [Rule.Formed, bindingsFormed, ihv, ihm]
  | noStart | absent => exact nofun
  | varStart _ _ ih =>
    rintro _ ⟨⟩
    exact ih
  | expressionStart _ _ ih =>
    rintro _ ⟨⟩
    simpa [Rule.Formed, Stmt.isFormed] using ih
  | present _ ih =>
    rintro _ ⟨⟩
    exact ih
  | forStatement _ _ _ _ _ _ _ _ ihs ihc ihi ihb => exact isFormed_forLoop ihs ihc ihi ihb
  | ifStatement _ _ _ _ _ ihc iht =>
    simp only [Rule.Formed] at ihc iht
    exact ⟨rfl, by simp [Stmt.isFormed, ihc, iht]⟩
  | elseStatement _ _ _ _ _ _ _ ihc iht ihf =>
    simp only [Rule.Formed] at ihc iht ihf
    exact ⟨rfl, by simp [Stmt.isFormed, ihc, iht, ihf]⟩
  | whileStatement _ _ _ _ _ ihc ihb =>
    simp only [Rule.Formed] at ihc ihb
    exact ⟨rfl, by simp [Stmt.isFormed, ihc, ihb]⟩
  | @returnStatement _ _ _ value _ _ _ _ _ ih =>
    refine ⟨rfl, ?_⟩
    cases value with
    | none => rfl
    | some e => simpa [Stmt.isFormed] using ih e rfl
  | breakStatement | continueStatement => simp [Rule.Formed, Stmt.isBranch, Stmt.isFormed]
  | blockStatement _ _ ih => simpa [Rule.Formed, Stmt.isBranch, Stmt.isFormed] using ih
  | printStatement _ _ _ ih => simpa [Rule.Formed, Stmt.isBranch, Stmt.isFormed] using ih
  | expressionStatement _ _ ih => simpa [Rule.Formed, Stmt.isBranch, Stmt.isFormed] using ih

/-- A program that was read is formed. -/
theorem stmtsFormed_of_parseProgram {ts : List Token} {n : Nat} {ss : List Stmt}
    (h : (parseProgram ts n).1 = .ok ss) : stmtsFormed false ss := by
  have hlen : (Cursor.start ts n).rest.length ≤ ts.length := (List.takeWhile_sublist _).length_le
  have hderives := (Cursor.reads_of_items (clean_start ts n) hlen h).1
  have hformed : stmtsFormed false (eraseStmts ss) := hderives.formed
  rwa [stmtsFormed_erase] at hformed

/-! ### What is visited in a formed tree is formed -/

/-- A part is formed in the setting in which it is visited. -/
def Part.Formed : Part → Setting → Prop
  | .expr e, _ => e.isFormed
  | .stmt s, p => s.isFormed p.inLoop
  | .stmts ss, p => stmtsFormed p.inLoop ss

theorem isFormed_of_areFormed {es : List Expr} (h : areFormed es) : ∀ e ∈ es, e.isFormed := by
  induction es with
  | nil => exact nofun
  | cons e es ih =>
    simp only [areFormed, Bool.and_eq_true] at h
    exact List.forall_mem_cons.2 ⟨h.1, ih h.2⟩

theorem isFormed_of_bindingsFormed {bs : List (Token × Option Expr)} (h : bindingsFormed bs) :
    ∀ e ∈ bs.filterMap Prod.snd, e.isFormed := by
  induction bs with
  | nil => exact nofun
  | cons b bs ih =>
    obtain ⟨name, _ | value⟩ := b
    · simp only [bindingsFormed] at h
      exact ih h
    · simp only [bindingsFormed, Bool.and_eq_true] at h
      exact List.forall_mem_cons.2 ⟨h.1, ih h.2⟩

theorem FunctionDecl.isFormed_iff {decl : FunctionDecl} :
    decl.isFormed ↔ stmtsFormed false decl.body := by
  obtain ⟨name, parameters, body, keyword⟩ := decl
  rw [FunctionDecl.isFormed]

theorem isFormed_of_methodsFormed {decls : List FunctionDecl} (h : methodsFormed decls) :
    ∀ decl ∈ decls, stmtsFormed false decl.body := by
  induction decls with
  | nil => exact nofun
  | cons decl decls ih =>
    simp only [methodsFormed, Bool.and_eq_true] at h
    exact List.forall_mem_cons.2 ⟨FunctionDecl.isFormed_iff.1 h.1, ih h.2⟩

namespace Part.Formed

variable {p : Setting} {q : Part × Setting}

theorem exprs {es : List Expr} (h : ∀ e ∈ es, e.isFormed) (hq : q ∈ Part.exprs es p) :
    q.1.Formed q.2 := by
  obtain ⟨e, he, rfl⟩ := List.mem_map.1 hq
  exact h e he

theorem operands {e : Expr} (h : e.isFormed) : ∀ x ∈ e.operands, x.isFormed := by
  cases e with
  | literal | «variable» | this | lambda => exact nofun
  | group | unary | assign | get =>
    simp only [Expr.isFormed] at h
    simpa [Expr.operands] using h
  | binary | logical | index | set | ternary =>
    simp only [Expr.isFormed, Bool.and_eq_true] at h
    simpa [Expr.operands] using h
  | call callee paren arguments =>
    simp only [Expr.isFormed, Bool.and_eq_true] at h
    exact List.forall_mem_cons.2 ⟨h.1, isFormed_of_areFormed h.2⟩
  | array bracket elements =>
    simp only [Expr.isFormed] at h
    exact isFormed_of_areFormed h

theorem expr {e : Expr} (h : (Part.expr e).Formed p) (hq : q ∈ (Part.expr e).children p) :
    q.1.Formed q.2 := by
  have he : e.isFormed := h
  cases e with
  | lambda decl =>
    obtain rfl := List.mem_singleton.1 hq
    rw [Expr.isFormed] at he
    exact FunctionDecl.isFormed_iff.1 he
  | _ => exact exprs (p := p) (operands he) hq

theorem stmt {s : Stmt} (h : (Part.stmt s).Formed p) (hq : q ∈ (Part.stmt s).children p) :
    q.1.Formed q.2 := by
  have hs : s.isFormed p.inLoop := h
  cases s with
  | block body =>
    obtain rfl := List.mem_singleton.1 hq
    rw [Stmt.isFormed] at hs
    exact hs
  | expression value | print value =>
    obtain rfl := List.mem_singleton.1 hq
    rw [Stmt.isFormed] at hs
    exact hs
  | var bindings =>
    rw [Stmt.isFormed] at hs
    exact exprs (isFormed_of_bindingsFormed hs) hq
  | function decl =>
    obtain rfl := List.mem_singleton.1 hq
    rw [Stmt.isFormed] at hs
    exact FunctionDecl.isFormed_iff.1 hs
  | classDecl name methods =>
    obtain ⟨decl, hm, rfl⟩ := List.mem_map.1 hq
    rw [Stmt.isFormed] at hs
    exact isFormed_of_methodsFormed hs decl hm
  | conditional condition whenTrue whenFalse =>
    cases whenFalse with
    | none =>
      simp only [Stmt.isFormed, Bool.and_eq_true] at hs
      simp only [Part.children, List.mem_cons, List.not_mem_nil, or_false] at hq
      rcases hq with rfl | rfl
      · exact hs.1
      · exact hs.2.2
    | some whenFalse =>
      simp only [Stmt.isFormed, Bool.and_eq_true] at hs
      simp only [Part.children, List.mem_cons, List.not_mem_nil, or_false] at hq
      rcases hq with rfl | rfl | rfl
      · exact hs.1
      · exact hs.2.1.2
      · exact hs.2.2.2
  | loop condition body increment =>
    simp only [Part.children, List.mem_cons] at hq
    cases increment with
    | none =>
      simp only [Stmt.isFormed, Bool.and_eq_true] at hs
      rcases hq with rfl | rfl | hq
      · exact hs.1
      · exact hs.2.2
      · cases hq
    | some increment =>
      simp only [Stmt.isFormed, Bool.and_eq_true] at hs
      rcases hq with rfl | rfl | hq
      · exact hs.1
      · exact hs.2.1.2
      · obtain rfl := List.mem_singleton.1 hq
        exact hs.2.2
  | returning keyword value =>
    cases value with
    | none => cases hq
    | some value =>
      obtain rfl := List.mem_singleton.1 hq
      rw [Stmt.isFormed] at hs
      exact hs
  | breaking | continuing => cases hq

theorem child {part : Part} (h : part.Formed p) (hq : q ∈ part.children p) : q.1.Formed q.2 := by
  cases part with
  | expr e => exact h.expr hq
  | stmt s => exact h.stmt hq
  | stmts ss =>
    cases ss with
    | nil => cases hq
    | cons s rest =>
      have hss : stmtsFormed p.inLoop (s :: rest) := h
      simp only [stmtsFormed, Bool.and_eq_true] at hss
      simp only [Part.children, List.mem_cons, List.not_mem_nil, or_false] at hq
      rcases hq with rfl | rfl
      · exact hss.1
      · exact hss.2

theorem visits {part part' : Part} {p' : Setting} (h : part.Formed p)
    (hv : Visits part p part' p') : part'.Formed p' := by
  induction hv with
  | here => exact h
  | inside hc _ ih => exact ih (h.child hc)

end Part.Formed

/-- A branch leaves the context as it is. -/
theorem Stmt.after_of_isFormed (s : Stmt) {l : Bool} (hb : s.isBranch) (hf : s.isFormed l)
    (c : Context) : s.after c = c := by
  cases s with
  | var | function | classDecl => cases hb
  | block | expression | print | returning | breaking | continuing => rfl
  | conditional condition whenTrue whenFalse =>
    cases whenFalse with
    | none =>
      simp only [Stmt.isFormed, Bool.and_eq_true] at hf
      exact whenTrue.after_of_isFormed hf.2.1 hf.2.2 c
    | some whenFalse =>
      simp only [Stmt.isFormed, Bool.and_eq_true] at hf
      rw [Stmt.after, whenTrue.after_of_isFormed hf.2.1.1 hf.2.1.2,
        whenFalse.after_of_isFormed hf.2.2.1 hf.2.2.2]
  | loop condition body increment =>
    cases increment with
    | none =>
      simp only [Stmt.isFormed, Bool.and_eq_true] at hf
      exact body.after_of_isFormed hf.2.1 hf.2.2 c
    | some increment =>
      simp only [Stmt.isFormed, Bool.and_eq_true] at hf
      exact body.after_of_isFormed hf.2.1.1 hf.2.1.2 c

end TreeWalk
