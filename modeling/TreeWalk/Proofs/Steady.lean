import TreeWalk.Proofs.Composed

/-!
# How far a production moves the cursor

Whatever a production reads and whether it succeeds or fails, it leaves a cursor that follows the one
it was given (`Cursor.Follows`): it stands at the same place or further on, in as many loops, no
fault that was noted is lost and no reference is given out twice. Following is reflexive and
transitive, so a production is steady as soon as its parts are.
-/

namespace TreeWalk

/-- `c'` is a cursor that reading can leave behind when it starts at `c`. -/
structure Cursor.Follows (c c' : Cursor) : Prop where
  rest : c'.rest <:+ c.rest
  endLine : c'.endLine = c.endLine
  loops : c'.loops = c.loops
  faults : c.faults <+: c'.faults
  reference : c.nextReference ≤ c'.nextReference

namespace Cursor.Follows

variable {c c' c'' : Cursor}

theorem refl (c : Cursor) : c.Follows c :=
  ⟨List.suffix_refl _, rfl, rfl, List.prefix_refl _, Nat.le_refl _⟩

theorem trans (h : c.Follows c') (h' : c'.Follows c'') : c.Follows c'' :=
  ⟨h'.rest.trans h.rest, h'.endLine.trans h.endLine, h'.loops.trans h.loops,
    h.faults.trans h'.faults, Nat.le_trans h.reference h'.reference⟩

/-- Dropping tokens. -/
theorem drop {rest : List Token} (h : rest <:+ c.rest) : c.Follows { c with rest := rest } :=
  ⟨h, rfl, rfl, List.prefix_refl _, Nat.le_refl _⟩

theorem take {t : Token} {rest : List Token} (h : c.rest = t :: rest) :
    c.Follows { c with rest := rest } :=
  drop (h ▸ List.suffix_cons t rest)

theorem length_le (h : c.Follows c') : c'.rest.length ≤ c.rest.length :=
  h.rest.length_le

end Cursor.Follows

/-- The cursor that a reply leaves behind. -/
def Reply.after {α : Type} : Reply α → Cursor
  | .done _ c => c
  | .failed _ c => c

namespace Production

variable {α β : Type}

/-- A production that leaves a cursor behind the one it starts at. -/
def Steady (p : Production α) : Prop :=
  ∀ c : Cursor, c.Follows (p c).after

theorem Steady.of_done {p : Production α} (hp : p.Steady) {c c' : Cursor} {a : α}
    (h : p c = .done a c') : c.Follows c' := by
  have := hp c
  rwa [h] at this

theorem Steady.take {p : Production α} (hp : p.Steady) {c : Cursor} {t : Token} {rest : List Token}
    (h : c.rest = t :: rest) : c.Follows (p { c with rest := rest }).after :=
  (Cursor.Follows.take h).trans (hp _)

/-! ### The parts -/

theorem steady_pure (a : α) : Steady (pure a) := fun c => .refl c

theorem steady_bind {p : Production α} {f : α → Production β} (hp : p.Steady)
    (hf : ∀ a, (f a).Steady) : Steady (p >>= f) := by
  intro c
  have h := hp c
  show c.Follows (Production.bind p f c).after
  unfold Production.bind
  split
  · next a c' hc =>
    rw [hc] at h
    exact h.trans (hf a c')
  · next hc =>
    rw [hc] at h
    exact h

theorem steady_fail (cause : SyntaxCause) : Steady (α := α) (fail cause) := fun c => .refl c

theorem steady_failAt (t : Token) (cause : SyntaxCause) : Steady (α := α) (failAt t cause) :=
  fun c => .refl c

theorem steady_check (p : Token → Bool) : Steady (check p) := fun c => .refl c

theorem steady_endsBlock : Steady endsBlock := fun c => .refl c

theorem steady_startsFunction : Steady startsFunction := fun c => .refl c

theorem steady_accept? (p : Token → Bool) : Steady (accept? p) := by
  intro c
  unfold accept?
  split
  · next hc =>
    split
    · exact .take hc
    · exact .refl c
  · exact .refl c

theorem steady_expect (p : Token → Bool) (what : Expected) : Steady (expect p what) := by
  intro c
  unfold expect
  split
  · next hc =>
    split
    · exact .take hc
    · exact .refl c
  · exact .refl c

theorem steady_freshReference : Steady freshReference :=
  fun _ => ⟨List.suffix_refl _, rfl, rfl, List.prefix_refl _, Nat.le_succ _⟩

/-- What `leave` makes of the number of loops that `p` left is the number from before, since `p` left as
many as it was given. -/
theorem steady_withLoops {p : Production α} {enter : Nat → Nat} {leave : Nat → Nat → Nat}
    (hback : ∀ n, leave n (enter n) = n) (hp : p.Steady) : Steady (withLoops enter leave p) := by
  intro c
  have h := hp { c with loops := enter c.loops }
  have hloops {after : Nat} (hafter : after = enter c.loops) : leave c.loops after = c.loops := by
    rw [hafter, hback]
  unfold withLoops
  split
  · next hc =>
    rw [hc] at h
    exact ⟨h.rest, h.endLine, hloops h.loops, h.faults, h.reference⟩
  · next hc =>
    rw [hc] at h
    exact ⟨h.rest, h.endLine, hloops h.loops, h.faults, h.reference⟩

theorem skipFrom_suffix (last : Token) (ts : List Token) : skipFrom last ts <:+ ts := by
  induction ts generalizing last with
  | nil => exact List.suffix_refl _
  | cons t rest ih =>
    rw [skipFrom]
    split
    · exact List.suffix_refl _
    · exact (ih t).trans (List.suffix_cons t rest)

theorem resume_suffix (ts : List Token) : resume ts <:+ ts := by
  cases ts with
  | nil => exact List.suffix_refl _
  | cons t rest => exact (skipFrom_suffix t rest).trans (List.suffix_cons t rest)

theorem steady_recovering {p : Production α} (hp : p.Steady) : Steady (recovering p) := by
  intro c
  have h := hp c
  unfold recovering
  split
  · next hc =>
    rw [hc] at h
    exact h
  · next hc =>
    rw [hc] at h
    exact ⟨(resume_suffix _).trans h.rest, h.endLine, h.loops, h.faults.trans (List.prefix_append _ _),
      h.reference⟩

theorem steady_look {next : Token → Option (Production α)} {other : Production α}
    (hnext : ∀ t p, next t = some p → p.Steady) (hother : other.Steady) :
    Steady (look next other) := by
  intro c
  unfold look
  split
  · exact hother c
  · next hc =>
    split
    · next p hp => exact (hnext _ p hp).take hc
    · exact hother c

theorem steady_insideLoop (t : Token) (outside : SyntaxCause) {p : Production α} (hp : p.Steady) :
    Steady (insideLoop t outside p) := by
  intro c
  unfold insideLoop
  split
  · exact .refl c
  · exact hp c

theorem Built.steady {last : Option Token} {seen : List Token} {p : Production α}
    (h : Built last seen p) : p.Steady := by
  induction h with
  | pure a => exact steady_pure a
  | bind _ _ hp hf => exact steady_bind hp hf
  | fail cause => exact steady_fail cause
  | noTarget => exact steady_failAt _ _
  | check q => exact steady_check q
  | endsBlock => exact steady_endsBlock
  | startsFunction => exact steady_startsFunction
  | freshReference => exact steady_freshReference
  | expect q what => exact steady_expect q what
  | accept _ _ hnone hsome =>
    refine steady_bind (steady_accept? _) fun o => ?_
    cases o with
    | none => exact hnone
    | some t => exact hsome t
  | look _ _ hnext hother => exact steady_look hnext hother
  | insideLoop _ hp => exact steady_insideLoop _ _ hp
  | withLoops hback _ hp => exact steady_withLoops hback hp
  | recovering _ hp => exact steady_recovering hp

theorem Composed.steady {p : Production α} (h : p.Composed) : p.Steady :=
  (h none []).steady

/-! ### The productions -/

/-- All productions that count down fuel are steady with so much of it. -/
structure AllSteady (fuel : Nat) : Prop where
  expression : Steady (expression fuel)
  ternary : Steady (ternary fuel)
  binary : ∀ levels, Steady (binary fuel levels)
  binaryRest : ∀ level tighter left, Steady (binaryRest fuel level tighter left)
  unary : Steady (unary fuel)
  callRest : ∀ callee, Steady (callRest fuel callee)
  arguments : ∀ closing what, Steady (arguments fuel closing what)
  argumentList : ∀ allowed, Steady (argumentList fuel allowed)
  primary : Steady (primary fuel)
  functionTail : ∀ kind name keyword, Steady (functionTail fuel kind name keyword)
  function : ∀ kind, Steady (function fuel kind)
  block : Steady (block fuel)
  declarations : Steady (declarations fuel)
  declaration : Steady (declaration fuel)
  methods : Steady (methods fuel)
  varDeclaration : Steady (varDeclaration fuel)
  bindings : Steady (bindings fuel)
  statement : Steady (statement fuel)
  loopBody : Steady (loopBody fuel)
  forStart : Steady (forStart fuel)
  optionalExpression : ∀ closing, Steady (optionalExpression fuel closing)
  forStatement : Steady (forStatement fuel)
  ifStatement : Steady (ifStatement fuel)
  whileStatement : Steady (whileStatement fuel)
  returnStatement : ∀ keyword, Steady (returnStatement fuel keyword)
  blockStatement : Steady (blockStatement fuel)
  printStatement : Steady (printStatement fuel)
  expressionStatement : Steady (expressionStatement fuel)

/-- Every production is steady, with any amount of fuel. -/
theorem allSteady (fuel : Nat) : AllSteady fuel where
  expression := (allComposed fuel).expression.steady
  ternary := (allComposed fuel).ternary.steady
  binary levels := ((allComposed fuel).binary levels).steady
  binaryRest level tighter left := ((allComposed fuel).binaryRest level tighter left).steady
  unary := (allComposed fuel).unary.steady
  callRest callee := ((allComposed fuel).callRest callee).steady
  arguments closing what := ((allComposed fuel).arguments closing what).steady
  argumentList allowed := ((allComposed fuel).argumentList allowed).steady
  primary := (allComposed fuel).primary.steady
  functionTail kind name keyword := ((allComposed fuel).functionTail kind name keyword).steady
  function kind := ((allComposed fuel).function kind).steady
  block := (allComposed fuel).block.steady
  declarations := (allComposed fuel).declarations.steady
  declaration := (allComposed fuel).declaration.steady
  methods := (allComposed fuel).methods.steady
  varDeclaration := (allComposed fuel).varDeclaration.steady
  bindings := (allComposed fuel).bindings.steady
  statement := (allComposed fuel).statement.steady
  loopBody := (allComposed fuel).loopBody.steady
  forStart := (allComposed fuel).forStart.steady
  optionalExpression closing := ((allComposed fuel).optionalExpression closing).steady
  forStatement := (allComposed fuel).forStatement.steady
  ifStatement := (allComposed fuel).ifStatement.steady
  whileStatement := (allComposed fuel).whileStatement.steady
  returnStatement keyword := ((allComposed fuel).returnStatement keyword).steady
  blockStatement := (allComposed fuel).blockStatement.steady
  printStatement := (allComposed fuel).printStatement.steady
  expressionStatement := (allComposed fuel).expressionStatement.steady

end Production

end TreeWalk
