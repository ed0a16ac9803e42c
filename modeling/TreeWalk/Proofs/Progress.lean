import TreeWalk.Proofs.Reading

/-!
# Reading comes to an end

Productions count down fuel, and `Cursor.fuel` gives them a certain amount of it. It is enough: with
that much fuel or more a production answers the same and never gives up for want of it (`Ends`). The
argument is a count of the productions that can nest before a token is taken, at most sixteen: if `n`
tokens are left, a production of rank `r` gets along with fuel `16 * n + r`. Where a production runs
a second time in its own place, as in a list of declarations, a token has been taken in between.
-/

namespace TreeWalk

/-- No fault has been noted that the fuel is to blame for. -/
def Cursor.Shallow (c : Cursor) : Prop :=
  ∀ f ∈ c.faults, f.cause ≠ .tooDeep

/-- No fault that the fuel is to blame for, neither noted nor answered. -/
def Reply.Shallow {α : Type} : Reply α → Prop
  | .done _ c => c.Shallow
  | .failed fault c => fault.cause ≠ .tooDeep ∧ c.Shallow

namespace Production

variable {α β : Type} {n : Nat}

/-- Where at most `n` tokens are left, `p` does not give up and takes no token back, and `p'` answers
as `p` does. -/
structure Ends (n : Nat) (p p' : Production α) : Prop where
  same : ∀ c : Cursor, c.rest.length ≤ n → p' c = p c
  shallow : ∀ c : Cursor, c.rest.length ≤ n → c.Shallow → (p c).Shallow
  length_le : ∀ c : Cursor, c.rest.length ≤ n → (p c).after.rest.length ≤ c.rest.length

theorem Ends.mono {p p' : Production α} {m : Nat} (h : Ends n p p') (hm : m ≤ n) : Ends m p p' :=
  ⟨fun c hc => h.same c (Nat.le_trans hc hm), fun c hc => h.shallow c (Nat.le_trans hc hm),
    fun c hc => h.length_le c (Nat.le_trans hc hm)⟩

/-! ### The parts -/

/-- A production without fuel of its own. -/
theorem ends_self {p : Production α} (hp : p.Steady) (hs : ∀ c : Cursor, c.Shallow → (p c).Shallow) :
    Ends n p p :=
  ⟨fun _ _ => rfl, fun c _ => hs c, fun c _ => (hp c).length_le⟩

theorem ends_pure (a : α) : Ends n (pure a : Production α) (pure a) :=
  ends_self (steady_pure a) fun _ hc => hc

theorem ends_fail {cause : SyntaxCause} (h : cause ≠ .tooDeep) :
    Ends n (fail cause : Production α) (fail cause) :=
  ends_self (steady_fail cause) fun _ hc => ⟨h, hc⟩

theorem ends_failAt (t : Token) {cause : SyntaxCause} (h : cause ≠ .tooDeep) :
    Ends n (failAt t cause : Production α) (failAt t cause) :=
  ends_self (steady_failAt t cause) fun _ hc => ⟨h, hc⟩

theorem ends_freshReference : Ends n freshReference freshReference :=
  ends_self steady_freshReference fun _ hc => hc

theorem ends_accept? (q : Token → Bool) : Ends n (accept? q) (accept? q) := by
  refine ends_self (steady_accept? q) fun c hc => ?_
  unfold accept?
  split
  · split <;> exact hc
  · exact hc

theorem ends_expect (q : Token → Bool) (what : Expected) : Ends n (expect q what) (expect q what) := by
  refine ends_self (steady_expect q what) fun c hc => ?_
  unfold expect
  split
  · split
    · exact hc
    · exact ⟨nofun, hc⟩
  · exact ⟨nofun, hc⟩

/-- What follows `p` starts at the tokens that `p` has left. -/
theorem ends_bind_at {p p' : Production α} {f f' : α → Production β} (hp : Ends n p p')
    (hf : ∀ a c c', c.rest.length ≤ n → p c = .done a c' → Ends c'.rest.length (f a) (f' a)) :
    Ends n (p >>= f) (p' >>= f') := by
  have hbind : ∀ (p : Production α) (f : α → Production β) c, (p >>= f) c = Production.bind p f c :=
    fun _ _ _ => rfl
  refine ⟨fun c hc => ?_, fun c hc hshallow => ?_, fun c hc => ?_⟩
  · rw [hbind, hbind, Production.bind, Production.bind, hp.same c hc]
    split
    · next a c' hreply => exact (hf a c c' hc hreply).same c' (Nat.le_refl _)
    · rfl
  · have hs := hp.shallow c hc hshallow
    rw [hbind, Production.bind]
    split
    · next a c' hreply =>
      rw [hreply] at hs
      exact (hf a c c' hc hreply).shallow c' (Nat.le_refl _) hs
    · next hreply =>
      rw [hreply] at hs
      exact hs
  · have hlen := hp.length_le c hc
    rw [hbind, Production.bind]
    split
    · next a c' hreply =>
      rw [hreply] at hlen
      exact Nat.le_trans ((hf a c c' hc hreply).length_le c' (Nat.le_refl _)) hlen
    · next hreply =>
      rw [hreply] at hlen
      exact hlen

theorem ends_bind {p p' : Production α} {f f' : α → Production β} (hp : Ends n p p')
    (hf : ∀ a, Ends n (f a) (f' a)) : Ends n (p >>= f) (p' >>= f') := by
  refine ends_bind_at hp fun a c c' hc hreply => (hf a).mono ?_
  have hlen := hp.length_le c hc
  rw [hreply] at hlen
  exact Nat.le_trans hlen hc

/-- If `p` takes a token, less fuel is needed for what follows. -/
theorem ends_bind_lt {p p' : Production α} {f f' : α → Production β} (hp : Ends n p p')
    (htakes : ∀ a c c', c.rest.length ≤ n → p c = .done a c' → c'.rest.length < n)
    (hf : ∀ m < n, ∀ a, Ends m (f a) (f' a)) : Ends n (p >>= f) (p' >>= f') :=
  ends_bind_at hp fun a c c' hc hreply => hf _ (htakes a c c' hc hreply) a

theorem length_lt_of_expect {q : Token → Bool} {what : Expected} {t : Token} {c c' : Cursor}
    (h : expect q what c = .done t c') : c'.rest.length < c.rest.length := by
  obtain ⟨-, rfl⟩ := expect_done h
  exact Nat.lt_succ_self _

theorem length_lt_of_accept? {q : Token → Bool} {t : Token} {c c' : Cursor}
    (h : accept? q c = .done (some t) c') : c'.rest.length < c.rest.length := by
  obtain ⟨ho, -⟩ | ⟨t', -, -, rfl⟩ := accept?_done h
  · cases ho
  · exact Nat.lt_succ_self _

theorem ends_expecting {q : Token → Bool} {what : Expected} {f f' : Token → Production β}
    (hf : ∀ m < n, ∀ t, Ends m (f t) (f' t)) : Ends n (expect q what >>= f) (expect q what >>= f') :=
  ends_bind_lt (ends_expect q what)
    (fun _ _ _ hc hreply => Nat.lt_of_lt_of_le (length_lt_of_expect hreply) hc) hf

theorem ends_accepting {q : Token → Bool} {f f' : Option Token → Production β}
    (hnone : Ends n (f none) (f' none)) (hsome : ∀ m < n, ∀ t, Ends m (f (some t)) (f' (some t))) :
    Ends n (accept? q >>= f) (accept? q >>= f') := by
  refine ends_bind_at (ends_accept? q) fun o c c' hc hreply => ?_
  cases o with
  | none =>
    have hlen := ((steady_accept? q).of_done hreply).length_le
    exact hnone.mono (Nat.le_trans hlen hc)
  | some t => exact hsome _ (Nat.lt_of_lt_of_le (length_lt_of_accept? hreply) hc) t

theorem ends_if {p : Production Bool} {q₁ q₁' q₂ q₂' : Production β} (hp : Ends n p p)
    (h₁ : Ends n q₁ q₁') (h₂ : Ends n q₂ q₂') :
    Ends n (do if ← p then q₁ else q₂) (do if ← p then q₁' else q₂') := by
  refine ends_bind hp fun b => ?_
  cases b with
  | true => exact h₁
  | false => exact h₂

theorem ends_check (q : Token → Bool) : Ends n (check q) (check q) :=
  ends_self (steady_check q) fun _ hc => hc

theorem ends_startsFunction : Ends n startsFunction startsFunction :=
  ends_self steady_startsFunction fun _ hc => hc

/-- Only where a token is left does a list go on. -/
theorem ends_unlessBlockEnds {q q' : Production β} {b : β} (h : 0 < n → Ends n q q') :
    Ends n (do if ← endsBlock then return b else q) (do if ← endsBlock then return b else q') := by
  refine ends_bind_at (ends_self steady_endsBlock fun _ hc => hc) fun ends c c' hc hreply => ?_
  cases ends with
  | true => exact ends_pure b
  | false =>
    injection hreply with hends hc'
    subst hc'
    have hne : c.rest.isEmpty = false := (Bool.or_eq_false_iff.1 hends).1
    have hpos : 0 < c.rest.length := List.length_pos_iff.2 fun h => by simp [h] at hne
    exact (h (Nat.lt_of_lt_of_le hpos hc)).mono hc

theorem ends_look {next next' : Token → Option (Production α)} {other other' : Production α}
    (hnext : ∀ m < n, ∀ t, Option.Rel (Ends m) (next t) (next' t)) (hother : Ends n other other') :
    Ends n (look next other) (look next' other') := by
  have hcases : ∀ c : Cursor, c.rest.length ≤ n →
      (look next other c = other c ∧ look next' other' c = other' c) ∨
      ∃ t rest p p', c.rest = t :: rest ∧ Ends rest.length p p' ∧
        look next other c = p { c with rest := rest } ∧
        look next' other' c = p' { c with rest := rest } := by
    intro c hc
    unfold look
    cases hrest : c.rest with
    | nil => exact .inl ⟨rfl, rfl⟩
    | cons t rest =>
      rw [hrest] at hc
      have hrel := hnext rest.length hc t
      cases hp : next t with
      | none =>
        rw [hp] at hrel
        cases hp' : next' t with
        | none => exact .inl ⟨by simp only [hp], by simp only [hp']⟩
        | some p' => rw [hp'] at hrel; cases hrel
      | some p =>
        rw [hp] at hrel
        cases hp' : next' t with
        | none => rw [hp'] at hrel; cases hrel
        | some p' =>
          rw [hp'] at hrel
          cases hrel with
          | some h => exact .inr ⟨t, rest, p, p', rfl, h, by simp only [hp], by simp only [hp']⟩
  refine ⟨fun c hc => ?_, fun c hc hshallow => ?_, fun c hc => ?_⟩
  · rcases hcases c hc with ⟨h, h'⟩ | ⟨t, rest, p, p', -, hends, h, h'⟩
    · rw [h, h']
      exact hother.same c hc
    · rw [h, h']
      exact hends.same _ (Nat.le_refl _)
  · rcases hcases c hc with ⟨h, -⟩ | ⟨t, rest, p, p', -, hends, h, -⟩
    · rw [h]
      exact hother.shallow c hc hshallow
    · rw [h]
      exact hends.shallow _ (Nat.le_refl _) hshallow
  · rcases hcases c hc with ⟨h, -⟩ | ⟨t, rest, p, p', hrest, hends, h, -⟩
    · rw [h]
      exact hother.length_le c hc
    · rw [h, hrest]
      exact Nat.le_succ_of_le (hends.length_le { c with rest := rest } (Nat.le_refl _))

theorem ends_withLoops {p p' : Production α} (enter : Nat → Nat) (leave : Nat → Nat → Nat)
    (hp : Ends n p p') : Ends n (withLoops enter leave p) (withLoops enter leave p') := by
  refine ⟨fun c hc => ?_, fun c hc hshallow => ?_, fun c hc => ?_⟩
  · rw [withLoops, withLoops, hp.same { c with loops := enter c.loops } hc]
  · have hs := hp.shallow { c with loops := enter c.loops } hc hshallow
    unfold withLoops
    split
    · next hreply => rwa [hreply] at hs
    · next hreply => rwa [hreply] at hs
  · have hlen := hp.length_le { c with loops := enter c.loops } hc
    unfold withLoops
    split
    · next hreply => rwa [hreply] at hlen
    · next hreply => rwa [hreply] at hlen

theorem ends_recovering {p p' : Production α} (hp : Ends n p p') :
    Ends n (recovering p) (recovering p') := by
  refine ⟨fun c hc => ?_, fun c hc hshallow => ?_, fun c hc => ?_⟩
  · rw [recovering, recovering, hp.same c hc]
  · have hs := hp.shallow c hc hshallow
    unfold recovering
    split
    · next hreply => rwa [hreply] at hs
    · next fault c' hreply =>
      rw [hreply] at hs
      intro f hf
      rcases List.mem_append.1 hf with hf | hf
      · exact hs.2 f hf
      · rw [List.mem_singleton.1 hf]
        exact hs.1
  · have hlen := hp.length_le c hc
    unfold recovering
    split
    · next hreply => rwa [hreply] at hlen
    · next fault c' hreply =>
      rw [hreply] at hlen
      exact Nat.le_trans (resume_suffix c'.rest).length_le hlen

theorem ends_parameters (allowed : Nat) : Ends n (parameters allowed) (parameters allowed) := by
  induction allowed generalizing n with
  | zero => exact ends_fail (by decide)
  | succ allowed ih =>
    rw [parameters]
    exact ends_expecting fun m _ name => ends_accepting (ends_pure _) fun m' _ _ =>
      ends_bind ih fun _ => ends_pure _

theorem ends_jumpStatement {outside : SyntaxCause} (h : outside ≠ .tooDeep) (what : Expected)
    (node : Token → Stmt) (keyword : Token) :
    Ends n (jumpStatement outside what node keyword) (jumpStatement outside what node keyword) := by
  have hinside : Ends n (do
      let _ ← symbol .semicolon what
      return node keyword) (do
      let _ ← symbol .semicolon what
      return node keyword) := ends_expecting fun _ _ _ => ends_pure _
  refine ⟨fun _ _ => rfl, fun c hc hshallow => ?_, fun c hc => ?_⟩
  · unfold jumpStatement
    split
    · exact ⟨h, hshallow⟩
    · exact hinside.shallow c hc hshallow
  · unfold jumpStatement
    split
    · exact Nat.le_refl _
    · exact hinside.length_le c hc

/-! ### Productions that take a token -/

/-- Whatever is read, a token has been taken for it. -/
def Shortens (p : Production α) : Prop :=
  ∀ c a c', p c = .done a c' → c'.rest.length < c.rest.length

theorem shortens_fail (cause : SyntaxCause) : Shortens (fail cause : Production α) :=
  fun _ _ _ h => nomatch h

theorem shortens_bind {p : Production α} {f : α → Production β} (hp : p.Steady)
    (hf : ∀ a, Shortens (f a)) : Shortens (p >>= f) := by
  intro c b c' h
  obtain ⟨a, c₁, h₁, h₂⟩ := bind_done h
  exact Nat.lt_of_lt_of_le (hf a c₁ b c' h₂) (hp.of_done h₁).length_le

theorem shortens_expecting {q : Token → Bool} {what : Expected} {f : Token → Production β}
    (hf : ∀ t, (f t).Steady) : Shortens (expect q what >>= f) := by
  intro c b c' h
  obtain ⟨t, c₁, h₁, h₂⟩ := bind_done h
  exact Nat.lt_of_le_of_lt ((hf t).of_done h₂).length_le (length_lt_of_expect h₁)

theorem shortens_accepting {q : Token → Bool} {f : Option Token → Production β}
    (hnone : Shortens (f none)) (hsome : ∀ t, (f (some t)).Steady) :
    Shortens (accept? q >>= f) := by
  intro c b c' h
  obtain ⟨o, c₁, h₁, h₂⟩ := bind_done h
  cases o with
  | none => exact Nat.lt_of_lt_of_le (hnone c₁ b c' h₂) ((steady_accept? q).of_done h₁).length_le
  | some t => exact Nat.lt_of_le_of_lt ((hsome t).of_done h₂).length_le (length_lt_of_accept? h₁)

theorem shortens_look {next : Token → Option (Production α)} {other : Production α}
    (hnext : ∀ t p, next t = some p → p.Steady) (hother : Shortens other) :
    Shortens (look next other) := by
  intro c a c' h
  unfold look at h
  split at h
  · exact hother c a c' h
  · next t rest hrest =>
    split at h
    · next p hp =>
      rw [hrest]
      exact Nat.lt_succ_of_le ((hnext t p hp).of_done h).length_le
    · exact hother c a c' h

theorem shortens_function (fuel : Nat) (kind : FunctionKind) : Shortens (function fuel kind) := by
  cases fuel with
  | zero => exact shortens_fail _
  | succ fuel =>
    rw [function]
    exact shortens_expecting fun _ => steady_bind (steady_expect _ _) fun _ =>
      (allSteady fuel).functionTail _ _ _

theorem shortens_expressionStatement (fuel : Nat) : Shortens (expressionStatement fuel) := by
  cases fuel with
  | zero => exact shortens_fail _
  | succ fuel =>
    rw [expressionStatement]
    exact shortens_bind (allSteady fuel).expression fun _ => shortens_expecting fun _ => steady_pure _

theorem shortens_statement (fuel : Nat) : Shortens (statement fuel) := by
  cases fuel with
  | zero => exact shortens_fail _
  | succ fuel =>
    rw [statement_eq_look]
    exact shortens_look (fun _ _ hp => (built_statementBehind (allComposed fuel) hp []).steady)
      (shortens_expressionStatement fuel)

theorem shortens_declaration (fuel : Nat) : Shortens (declaration fuel) := by
  cases fuel with
  | zero => exact shortens_fail _
  | succ fuel =>
    have h := allSteady fuel
    rw [declaration]
    refine shortens_accepting ?_ fun _ => steady_bind (steady_expect _ _) fun _ =>
      steady_bind (steady_expect _ _) fun _ => steady_bind h.methods fun _ =>
      steady_bind (steady_expect _ _) fun _ => steady_pure _
    refine shortens_bind steady_startsFunction fun starts => ?_
    cases starts with
    | true =>
      refine shortens_bind (steady_accept? _) fun _ => ?_
      intro c s c' hreply
      obtain ⟨f, c₁, hf, hs⟩ := bind_done hreply
      obtain ⟨-, rfl⟩ := pure_done hs
      exact shortens_function fuel _ c f c₁ hf
    | false => exact shortens_accepting (shortens_statement fuel) fun _ => h.varDeclaration

theorem length_resume_lt {ts : List Token} (h : ts ≠ []) : (resume ts).length < ts.length := by
  cases ts with
  | nil => exact absurd rfl h
  | cons t rest => exact Nat.lt_succ_of_le (skipFrom_suffix t rest).length_le

/-- A declaration that is recovered from takes a token too, if there is one. -/
theorem length_lt_of_recovering {p : Production α} (hp : Shortens p) (hs : p.Steady) {o : Option α}
    {c c' : Cursor} (h : recovering p c = .done o c') (hc : c.rest ≠ []) :
    c'.rest.length < c.rest.length := by
  have hfollows := hs c
  unfold recovering at h
  split at h
  · next a c₁ hreply =>
    cases h
    exact hp c a c' hreply
  · next fault c₁ hreply =>
    cases h
    rw [hreply] at hfollows
    show (resume c₁.rest).length < c.rest.length
    cases hrest : c₁.rest with
    | nil => exact List.length_pos_iff.2 hc
    | cons t rest =>
      have hlt := length_resume_lt (List.cons_ne_nil t rest)
      rw [← hrest] at hlt ⊢
      exact Nat.lt_of_lt_of_le hlt hfollows.length_le

/-! ### The productions -/

/-- Whatever counts down fuel ends, given sixteen for each token and the rank of the production. More
fuel, `fuel'`, makes no difference. -/
structure AllEnd (fuel fuel' : Nat) : Prop where
  expression : ∀ n, 16 * n + 11 ≤ fuel → Ends n (expression fuel) (expression fuel')
  ternary : ∀ n, 16 * n + 10 ≤ fuel → Ends n (ternary fuel) (ternary fuel')
  binary : ∀ n levels, levels.length ≤ 6 → 16 * n + (3 + levels.length) ≤ fuel →
    Ends n (binary fuel levels) (binary fuel' levels)
  binaryRest : ∀ n level tighter left, tighter.length ≤ 6 → 16 * n + 1 ≤ fuel →
    Ends n (binaryRest fuel level tighter left) (binaryRest fuel' level tighter left)
  unary : ∀ n, 16 * n + 2 ≤ fuel → Ends n (unary fuel) (unary fuel')
  callRest : ∀ n callee, 16 * n + 1 ≤ fuel → Ends n (callRest fuel callee) (callRest fuel' callee)
  arguments : ∀ n closing what, 16 * n + 13 ≤ fuel →
    Ends n (arguments fuel closing what) (arguments fuel' closing what)
  argumentList : ∀ n allowed, 16 * n + 12 ≤ fuel →
    Ends n (argumentList fuel allowed) (argumentList fuel' allowed)
  primary : ∀ n, 16 * n + 1 ≤ fuel → Ends n (primary fuel) (primary fuel')
  functionTail : ∀ n kind name keyword, 16 * n + 1 ≤ fuel →
    Ends n (functionTail fuel kind name keyword) (functionTail fuel' kind name keyword)
  function : ∀ n kind, 16 * n + 1 ≤ fuel → Ends n (function fuel kind) (function fuel' kind)
  block : ∀ n, 16 * n + 16 ≤ fuel → Ends n (block fuel) (block fuel')
  declarations : ∀ n, 16 * n + 15 ≤ fuel → Ends n (declarations fuel) (declarations fuel')
  declaration : ∀ n, 16 * n + 14 ≤ fuel → Ends n (declaration fuel) (declaration fuel')
  methods : ∀ n, 16 * n + 2 ≤ fuel → Ends n (methods fuel) (methods fuel')
  varDeclaration : ∀ n, 16 * n + 2 ≤ fuel → Ends n (varDeclaration fuel) (varDeclaration fuel')
  bindings : ∀ n, 16 * n + 1 ≤ fuel → Ends n (bindings fuel) (bindings fuel')
  statement : ∀ n, 16 * n + 13 ≤ fuel → Ends n (statement fuel) (statement fuel')
  loopBody : ∀ n, 16 * n + 14 ≤ fuel → Ends n (loopBody fuel) (loopBody fuel')
  forStart : ∀ n, 16 * n + 13 ≤ fuel → Ends n (forStart fuel) (forStart fuel')
  optionalExpression : ∀ n closing, 16 * n + 12 ≤ fuel →
    Ends n (optionalExpression fuel closing) (optionalExpression fuel' closing)
  forStatement : ∀ n, 16 * n + 1 ≤ fuel → Ends n (forStatement fuel) (forStatement fuel')
  ifStatement : ∀ n, 16 * n + 1 ≤ fuel → Ends n (ifStatement fuel) (ifStatement fuel')
  whileStatement : ∀ n, 16 * n + 1 ≤ fuel → Ends n (whileStatement fuel) (whileStatement fuel')
  returnStatement : ∀ n keyword, 16 * n + 13 ≤ fuel →
    Ends n (returnStatement fuel keyword) (returnStatement fuel' keyword)
  blockStatement : ∀ n, 16 * n + 17 ≤ fuel → Ends n (blockStatement fuel) (blockStatement fuel')
  printStatement : ∀ n, 16 * n + 12 ≤ fuel → Ends n (printStatement fuel) (printStatement fuel')
  expressionStatement : ∀ n, 16 * n + 12 ≤ fuel →
    Ends n (expressionStatement fuel) (expressionStatement fuel')

theorem allEnd_zero (fuel' : Nat) : AllEnd 0 fuel' := by
  constructor <;> intros <;> omega

section

variable {fuel fuel' : Nat} (ih : AllEnd fuel fuel')

include ih

theorem ends_expression (h : 16 * n + 11 ≤ fuel + 1) :
    Ends n (expression (fuel + 1)) (expression (fuel' + 1)) := by
  rw [expression, expression]
  refine ends_bind (ih.ternary n (by omega)) fun target => ends_accepting (ends_pure _) fun m _ _ => ?_
  refine ends_bind (ih.expression m (by omega)) fun value => ?_
  cases target with
  | «variable» => exact ends_bind ends_freshReference fun _ => ends_pure _
  | get => exact ends_pure _
  | _ => exact ends_failAt _ (by decide)

theorem ends_ternary (h : 16 * n + 10 ≤ fuel + 1) :
    Ends n (ternary (fuel + 1)) (ternary (fuel' + 1)) := by
  rw [ternary, ternary]
  have hlevels : Level.all.length = 6 := rfl
  refine ends_bind (ih.binary n Level.all (by omega) (by omega)) fun condition => ?_
  refine ends_accepting (ends_pure _) fun m _ _ => ?_
  exact ends_bind (ih.ternary m (by omega)) fun _ => ends_expecting fun m' _ _ =>
    ends_bind (ih.ternary m' (by omega)) fun _ => ends_pure _

theorem ends_binary (levels : List Level) (hlevels : levels.length ≤ 6)
    (h : 16 * n + (3 + levels.length) ≤ fuel + 1) :
    Ends n (binary (fuel + 1) levels) (binary (fuel' + 1) levels) := by
  cases levels with
  | nil =>
    rw [List.length_nil] at h
    rw [binary, binary]
    exact ih.unary n (by omega)
  | cons level tighter =>
    rw [List.length_cons] at h hlevels
    rw [binary, binary]
    exact ends_bind (ih.binary n tighter (by omega) (by omega)) fun left =>
      ih.binaryRest n level tighter left (by omega) (by omega)

theorem ends_binaryRest (level : Level) (tighter : List Level) (left : Expr)
    (htighter : tighter.length ≤ 6) (h : 16 * n + 1 ≤ fuel + 1) :
    Ends n (binaryRest (fuel + 1) level tighter left) (binaryRest (fuel' + 1) level tighter left) := by
  rw [binaryRest, binaryRest]
  refine ends_accepting (ends_pure _) fun m hm operator => ?_
  exact ends_bind (ih.binary m tighter htighter (by omega)) fun right =>
    ih.binaryRest m level tighter _ htighter (by omega)

theorem ends_unary (h : 16 * n + 2 ≤ fuel + 1) : Ends n (unary (fuel + 1)) (unary (fuel' + 1)) := by
  rw [unary, unary]
  refine ends_accepting ?_ fun m _ _ => ends_bind (ih.unary m (by omega)) fun _ => ends_pure _
  refine ends_bind (ih.primary n (by omega)) fun _ => ends_bind (ih.callRest n _ (by omega)) fun _ => ?_
  exact ends_accepting (ends_pure _) fun _ _ _ => ends_pure _

theorem ends_callRest (callee : Expr) (h : 16 * n + 1 ≤ fuel + 1) :
    Ends n (callRest (fuel + 1) callee) (callRest (fuel' + 1) callee) := by
  rw [callRest, callRest]
  refine ends_accepting (ends_accepting (ends_accepting (ends_pure _) ?_) ?_) ?_
  · intro m _ _
    exact ends_expecting fun m' _ _ => ih.callRest m' _ (by omega)
  · intro m _ _
    exact ends_bind (ih.expression m (by omega)) fun _ => ends_expecting fun m' _ _ =>
      ih.callRest m' _ (by omega)
  · intro m _ _
    exact ends_bind (ih.arguments m _ _ (by omega)) fun _ => ih.callRest m _ (by omega)

theorem ends_arguments (closing : Symbol) (what : Expected) (h : 16 * n + 13 ≤ fuel + 1) :
    Ends n (arguments (fuel + 1) closing what) (arguments (fuel' + 1) closing what) := by
  rw [arguments, arguments]
  refine ends_bind (ends_check _) fun closes => ?_
  have hclose : ∀ values : List Expr, Ends n (do
      let close ← symbol closing what
      return (values, close)) (do
      let close ← symbol closing what
      return (values, close)) := fun _ => ends_expecting fun _ _ _ => ends_pure _
  cases closes with
  | true => exact ends_bind (ends_pure _) hclose
  | false => exact ends_bind (ih.argumentList n _ (by omega)) hclose

theorem ends_argumentList (allowed : Nat) (h : 16 * n + 12 ≤ fuel + 1) :
    Ends n (argumentList (fuel + 1) allowed) (argumentList (fuel' + 1) allowed) := by
  cases allowed with
  | zero => rw [argumentList, argumentList]; exact ends_fail (by decide)
  | succ allowed =>
    rw [argumentList, argumentList]
    exact ends_bind (ih.expression n (by omega)) fun _ => ends_accepting (ends_pure _) fun m _ _ =>
      ends_bind (ih.argumentList m _ (by omega)) fun _ => ends_pure _

theorem ends_operandBehind (h : 16 * n + 16 ≤ fuel + 1) (t : Token) :
    Option.Rel (Ends n) (operandBehind fuel t) (operandBehind fuel' t) := by
  unfold operandBehind
  split
  · exact .some (ends_pure _)
  · exact .some (ends_pure _)
  · exact .some (ends_pure _)
  · exact .some (ends_pure _)
  · exact .some (ends_pure _)
  · exact .some (ends_bind ends_freshReference fun _ => ends_pure _)
  · exact .some (ends_bind ends_freshReference fun _ => ends_pure _)
  · exact .some (ends_bind (ih.expression n (by omega)) fun _ => ends_expecting fun _ _ _ =>
      ends_pure _)
  · exact .some (ends_bind (ih.arguments n _ _ (by omega)) fun _ => ends_pure _)
  · exact .some (ends_expecting fun m _ _ => ends_bind (ih.functionTail m _ _ _ (by omega)) fun _ =>
      ends_pure _)
  · exact .none

theorem ends_primary (h : 16 * n + 1 ≤ fuel + 1) : Ends n (primary (fuel + 1)) (primary (fuel' + 1)) := by
  rw [primary_eq_look, primary_eq_look]
  exact ends_look (fun m _ => ends_operandBehind ih (by omega)) (ends_fail nofun)

theorem ends_functionTail (kind : FunctionKind) (name : Option Token) (keyword : Token)
    (h : 16 * n + 1 ≤ fuel + 1) :
    Ends n (functionTail (fuel + 1) kind name keyword) (functionTail (fuel' + 1) kind name keyword) := by
  rw [functionTail, functionTail]
  refine ends_bind (ends_check _) fun closes => ?_
  have hbody : ∀ names : List Token, Ends n (do
      let _ ← symbol .rightParen .closeParameters
      let _ ← symbol .leftBrace (.openFunctionBody kind)
      let body ← withLoops (fun _ => 0) (fun before _ => before) (block fuel)
      return (⟨name, names, body, keyword⟩ : FunctionDecl)) (do
      let _ ← symbol .rightParen .closeParameters
      let _ ← symbol .leftBrace (.openFunctionBody kind)
      let body ← withLoops (fun _ => 0) (fun before _ => before) (block fuel')
      return (⟨name, names, body, keyword⟩ : FunctionDecl)) := fun _ =>
    ends_expecting fun m _ _ => ends_expecting fun m' _ _ =>
      ends_bind (ends_withLoops _ _ (ih.block m' (by omega))) fun _ => ends_pure _
  cases closes with
  | true => exact ends_bind (ends_pure _) hbody
  | false => exact ends_bind (ends_parameters _) hbody

theorem ends_function (kind : FunctionKind) (h : 16 * n + 1 ≤ fuel + 1) :
    Ends n (function (fuel + 1) kind) (function (fuel' + 1) kind) := by
  rw [function, function]
  exact ends_expecting fun m _ _ => ends_expecting fun m' _ _ => ih.functionTail m' _ _ _ (by omega)

theorem ends_block (h : 16 * n + 16 ≤ fuel + 1) : Ends n (block (fuel + 1)) (block (fuel' + 1)) := by
  rw [block, block]
  exact ends_bind (ih.declarations n (by omega)) fun _ => ends_expecting fun _ _ _ => ends_pure _

theorem ends_declarations (h : 16 * n + 15 ≤ fuel + 1) :
    Ends n (declarations (fuel + 1)) (declarations (fuel' + 1)) := by
  rw [declarations, declarations]
  refine ends_unlessBlockEnds fun hn => ?_
  refine ends_bind_lt (ends_recovering (ih.declaration n (by omega))) ?_ fun m _ first => ?_
  · -- With no token left the declaration fails and nothing can be taken, but there is fuel for that.
    intro o c c' hc hreply
    by_cases hrest : c.rest = []
    · have hlen := ((steady_recovering (allSteady fuel).declaration).of_done hreply).length_le
      rw [hrest] at hlen
      exact Nat.lt_of_le_of_lt hlen hn
    · exact Nat.lt_of_lt_of_le (length_lt_of_recovering (shortens_declaration fuel)
        (allSteady fuel).declaration hreply hrest) hc
  · cases first with
    | some _ => exact ends_bind (ih.declarations m (by omega)) fun _ => ends_pure _
    | none => exact ih.declarations m (by omega)

theorem ends_declaration (h : 16 * n + 14 ≤ fuel + 1) :
    Ends n (declaration (fuel + 1)) (declaration (fuel' + 1)) := by
  rw [declaration, declaration]
  refine ends_accepting ?_ fun m _ _ => ends_expecting fun m₁ _ _ => ends_expecting fun m₂ _ _ =>
    ends_bind (ih.methods m₂ (by omega)) fun _ => ends_expecting fun _ _ _ => ends_pure _
  have hfunction : Ends n (do return Stmt.function (← function fuel .function))
      (do return Stmt.function (← function fuel' .function)) :=
    ends_bind (ih.function n _ (by omega)) fun _ => ends_pure _
  refine ends_if ends_startsFunction
    (ends_accepting hfunction fun m hm _ => hfunction.mono (Nat.le_of_lt hm)) ?_
  exact ends_accepting (ih.statement n (by omega)) fun m _ _ => ih.varDeclaration m (by omega)

theorem ends_methods (h : 16 * n + 2 ≤ fuel + 1) : Ends n (methods (fuel + 1)) (methods (fuel' + 1)) := by
  rw [methods, methods]
  refine ends_unlessBlockEnds fun _ => ends_bind_lt (ih.function n _ (by omega)) ?_ fun m _ _ =>
    ends_bind (ih.methods m (by omega)) fun _ => ends_pure _
  intro f c c' hc hreply
  exact Nat.lt_of_lt_of_le (shortens_function fuel _ c f c' hreply) hc

theorem ends_varDeclaration (h : 16 * n + 2 ≤ fuel + 1) :
    Ends n (varDeclaration (fuel + 1)) (varDeclaration (fuel' + 1)) := by
  rw [varDeclaration, varDeclaration]
  exact ends_bind (ih.bindings n (by omega)) fun _ => ends_expecting fun _ _ _ => ends_pure _

theorem ends_bindings (h : 16 * n + 1 ≤ fuel + 1) :
    Ends n (bindings (fuel + 1)) (bindings (fuel' + 1)) := by
  rw [bindings, bindings]
  refine ends_expecting fun m hm name => ends_accepting ?_ fun m' hm' _ => ?_
  · refine ends_bind (ends_pure _) fun _ => ends_accepting (ends_pure _) fun m' hm' _ => ?_
    exact ends_bind (ih.bindings m' (by omega)) fun _ => ends_pure _
  · refine ends_bind (ends_bind (ih.expression m' (by omega)) fun _ => ends_pure _) fun _ => ?_
    exact ends_accepting (ends_pure _) fun k hk _ =>
      ends_bind (ih.bindings k (by omega)) fun _ => ends_pure _

theorem ends_loopBody (h : 16 * n + 14 ≤ fuel + 1) :
    Ends n (loopBody (fuel + 1)) (loopBody (fuel' + 1)) := by
  rw [loopBody, loopBody]
  exact ends_withLoops _ _ (ih.statement n (by omega))

theorem ends_forStart (h : 16 * n + 13 ≤ fuel + 1) :
    Ends n (forStart (fuel + 1)) (forStart (fuel' + 1)) := by
  rw [forStart, forStart]
  refine ends_accepting (ends_accepting ?_ fun m _ _ => ?_) fun _ _ _ => ends_pure _
  · exact ends_bind (ih.expressionStatement n (by omega)) fun _ => ends_pure _
  · exact ends_bind (ih.varDeclaration m (by omega)) fun _ => ends_pure _

theorem ends_optionalExpression (closing : Symbol) (h : 16 * n + 12 ≤ fuel + 1) :
    Ends n (optionalExpression (fuel + 1) closing) (optionalExpression (fuel' + 1) closing) := by
  rw [optionalExpression, optionalExpression]
  exact ends_if (ends_check _) (ends_pure _)
    (ends_bind (ih.expression n (by omega)) fun _ => ends_pure _)

theorem ends_forStatement (h : 16 * n + 1 ≤ fuel + 1) :
    Ends n (forStatement (fuel + 1)) (forStatement (fuel' + 1)) := by
  rw [forStatement, forStatement]
  refine ends_expecting fun m _ _ => ends_bind (ih.forStart m (by omega)) fun first => ?_
  refine ends_bind (ih.optionalExpression m _ (by omega)) fun _ => ends_expecting fun m₁ _ _ => ?_
  refine ends_bind (ih.optionalExpression m₁ _ (by omega)) fun _ => ends_expecting fun m₂ _ _ => ?_
  refine ends_bind (ih.loopBody m₂ (by omega)) fun _ => ?_
  cases first with
  | some _ => exact ends_pure _
  | none => exact ends_pure _

theorem ends_ifStatement (h : 16 * n + 1 ≤ fuel + 1) :
    Ends n (ifStatement (fuel + 1)) (ifStatement (fuel' + 1)) := by
  rw [ifStatement, ifStatement]
  refine ends_expecting fun m _ _ => ends_bind (ih.expression m (by omega)) fun _ => ?_
  refine ends_expecting fun m₁ _ _ => ends_bind (ih.statement m₁ (by omega)) fun _ => ?_
  exact ends_accepting (ends_pure _) fun m₂ _ _ =>
    ends_bind (ih.statement m₂ (by omega)) fun _ => ends_pure _

theorem ends_whileStatement (h : 16 * n + 1 ≤ fuel + 1) :
    Ends n (whileStatement (fuel + 1)) (whileStatement (fuel' + 1)) := by
  rw [whileStatement, whileStatement]
  refine ends_expecting fun m _ _ => ends_bind (ih.expression m (by omega)) fun _ => ?_
  exact ends_expecting fun m₁ _ _ => ends_bind (ih.loopBody m₁ (by omega)) fun _ => ends_pure _

theorem ends_returnStatement (keyword : Token) (h : 16 * n + 13 ≤ fuel + 1) :
    Ends n (returnStatement (fuel + 1) keyword) (returnStatement (fuel' + 1) keyword) := by
  rw [returnStatement, returnStatement]
  exact ends_bind (ih.optionalExpression n _ (by omega)) fun _ => ends_expecting fun _ _ _ =>
    ends_pure _

theorem ends_blockStatement (h : 16 * n + 17 ≤ fuel + 1) :
    Ends n (blockStatement (fuel + 1)) (blockStatement (fuel' + 1)) := by
  rw [blockStatement, blockStatement]
  exact ends_bind (ih.block n (by omega)) fun _ => ends_pure _

theorem ends_printStatement (h : 16 * n + 12 ≤ fuel + 1) :
    Ends n (printStatement (fuel + 1)) (printStatement (fuel' + 1)) := by
  rw [printStatement, printStatement]
  exact ends_bind (ih.expression n (by omega)) fun _ => ends_expecting fun _ _ _ => ends_pure _

theorem ends_expressionStatement (h : 16 * n + 12 ≤ fuel + 1) :
    Ends n (expressionStatement (fuel + 1)) (expressionStatement (fuel' + 1)) := by
  rw [expressionStatement, expressionStatement]
  exact ends_bind (ih.expression n (by omega)) fun _ => ends_expecting fun _ _ _ => ends_pure _

theorem ends_statementBehind (h : 16 * n + 17 ≤ fuel) (t : Token) :
    Option.Rel (Ends n) (statementBehind fuel t) (statementBehind fuel' t) := by
  unfold statementBehind
  split
  · exact .some (ih.forStatement n (by omega))
  · exact .some (ih.ifStatement n (by omega))
  · exact .some (ih.whileStatement n (by omega))
  · exact .some (ih.returnStatement n _ (by omega))
  · exact .some (ends_jumpStatement (by decide) _ _ _)
  · exact .some (ends_jumpStatement (by decide) _ _ _)
  · exact .some (ih.blockStatement n (by omega))
  · exact .some (ih.printStatement n (by omega))
  · exact .none

theorem ends_statement (h : 16 * n + 13 ≤ fuel + 1) :
    Ends n (statement (fuel + 1)) (statement (fuel' + 1)) := by
  rw [statement_eq_look, statement_eq_look]
  exact ends_look (fun m _ => ends_statementBehind ih (by omega)) (ih.expressionStatement n (by omega))

end

/-- Every production ends, with the fuel its rank asks for or more. -/
theorem allEnd {fuel fuel' : Nat} (h : fuel ≤ fuel') : AllEnd fuel fuel' := by
  induction fuel generalizing fuel' with
  | zero => exact allEnd_zero fuel'
  | succ fuel ih =>
    obtain ⟨fuel', rfl⟩ : ∃ k, fuel' = k + 1 := ⟨fuel' - 1, by omega⟩
    have ih := ih (Nat.le_of_succ_le_succ h)
    exact ⟨fun _ => ends_expression ih, fun _ => ends_ternary ih, fun _ => ends_binary ih,
      fun _ => ends_binaryRest ih, fun _ => ends_unary ih, fun _ => ends_callRest ih,
      fun _ => ends_arguments ih, fun _ => ends_argumentList ih, fun _ => ends_primary ih,
      fun _ => ends_functionTail ih, fun _ => ends_function ih, fun _ => ends_block ih,
      fun _ => ends_declarations ih, fun _ => ends_declaration ih, fun _ => ends_methods ih,
      fun _ => ends_varDeclaration ih, fun _ => ends_bindings ih, fun _ => ends_statement ih,
      fun _ => ends_loopBody ih, fun _ => ends_forStart ih, fun _ => ends_optionalExpression ih,
      fun _ => ends_forStatement ih, fun _ => ends_ifStatement ih, fun _ => ends_whileStatement ih,
      fun _ => ends_returnStatement ih, fun _ => ends_blockStatement ih,
      fun _ => ends_printStatement ih, fun _ => ends_expressionStatement ih⟩

end Production

/-! ### The fuel of a cursor -/

open Production

variable {c : Cursor}

/-- More fuel than the cursor asks for does not change how a declaration is read. -/
theorem declaration_of_fuel_le {fuel : Nat} (h : c.fuel ≤ fuel) :
    declaration fuel c = declaration c.fuel c :=
  ((allEnd h).declaration c.rest.length (by rw [Cursor.fuel]; omega)).same c (Nat.le_refl _)

theorem expression_of_fuel_le {fuel : Nat} (h : c.fuel ≤ fuel) :
    expression fuel c = expression c.fuel c :=
  ((allEnd h).expression c.rest.length (by rw [Cursor.fuel]; omega)).same c (Nat.le_refl _)

theorem shallow_declaration (h : c.Shallow) : (declaration c.fuel c).Shallow :=
  ((allEnd (Nat.le_refl _)).declaration c.rest.length (by rw [Cursor.fuel]; omega)).shallow c
    (Nat.le_refl _) h

theorem shallow_expression (h : c.Shallow) : (expression c.fuel c).Shallow :=
  ((allEnd (Nat.le_refl _)).expression c.rest.length (by rw [Cursor.fuel]; omega)).shallow c
    (Nat.le_refl _) h

end TreeWalk
