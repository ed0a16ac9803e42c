import TreeWalk.Proofs.Lookahead
import TreeWalk.Proofs.Reading

/-!
# Tokens behind the last one

A production that stops before the last token has not looked at the end of the source, so it does the
same if more tokens follow, and the other way round (`Extends`). A production that goes on to the last
token may find something else behind it. An expression does not: followed by a semicolon or by
nothing, it is read alike (`Closed`), for no operator is a semicolon and what nests in an expression
is closed by a token of its own.
-/

namespace TreeWalk

/-- The cursor with more tokens behind those that are left. -/
def Cursor.extend (more : List Token) (c : Cursor) : Cursor :=
  { c with rest := c.rest ++ more }

def Reply.extend {α : Type} (more : List Token) : Reply α → Reply α
  | .done a c => .done a (c.extend more)
  | .failed fault c => .failed fault (c.extend more)

variable {more : List Token} {c c' : Cursor}

theorem Cursor.extend_injective (h : c.extend more = c'.extend more) : c = c' := by
  obtain ⟨rest, endLine, loops, faults, n⟩ := c
  obtain ⟨rest', endLine', loops', faults', n'⟩ := c'
  simp only [Cursor.extend, Cursor.mk.injEq, List.append_cancel_right_eq] at h
  obtain ⟨rfl, rfl, rfl, rfl, rfl⟩ := h
  rfl

theorem Cursor.place_extend (h : c.rest ≠ []) : (c.extend more).place = c.place := by
  obtain ⟨_ | ⟨t, rest⟩, endLine, loops, faults, n⟩ := c
  · exact absurd rfl h
  · rfl

/-- A cursor that has not come to the tokens behind. -/
theorem Cursor.exists_extend (h : ∃ rest, c.rest = rest ++ more) : ∃ c₁ : Cursor, c = c₁.extend more := by
  obtain ⟨rest, hrest⟩ := h
  refine ⟨{ c with rest := rest }, ?_⟩
  rw [Cursor.extend, ← hrest]

theorem Cursor.exists_extend_of_suffix (h : (c.extend more).rest <:+ c'.rest) :
    ∃ c₁ : Cursor, c' = c₁.extend more := by
  obtain ⟨taken, htaken⟩ := h
  refine Cursor.exists_extend ⟨taken ++ c.rest, ?_⟩
  rw [← htaken, Cursor.extend, List.append_assoc]

namespace Production

variable {α β : Type}

/-! ### Stopping before the end -/

/-- One of the two runs, that at the tokens alone or that with `more` behind them, stops before the
end of the tokens. -/
def StopsBefore (more : List Token) (p : Production α) (c : Cursor) : Prop :=
  (p c).after.rest ≠ [] ∨ more.length < (p (c.extend more)).after.rest.length

/-- A run that stops before the end of the tokens is the same with more tokens behind them. -/
def Extends (more : List Token) (p : Production α) : Prop :=
  ∀ c, StopsBefore more p c → p (c.extend more) = (p c).extend more

/-- A production that leaves the cursor where it is. -/
theorem extends_of_stay {p : Production α} (hstay : ∀ c, (p c).after.rest = c.rest)
    (h : ∀ c : Cursor, c.rest ≠ [] → p (c.extend more) = (p c).extend more) : Extends more p := by
  intro c hc
  refine h c fun hnil => ?_
  rcases hc with hc | hc
  · exact hc ((hstay c).trans hnil)
  · rw [hstay, Cursor.extend, hnil, List.nil_append] at hc
    exact Nat.lt_irrefl _ hc

theorem extends_fail (cause : SyntaxCause) : Extends (α := α) more (fail cause) :=
  extends_of_stay (fun _ => rfl) fun c hc => by
    rw [fail, Cursor.place_extend hc]
    rfl

theorem sees_extend (q : Token → Bool) (h : c.rest ≠ []) : (c.extend more).sees q = c.sees q := by
  obtain ⟨_ | ⟨t, rest⟩, endLine, loops, faults, n⟩ := c
  · exact absurd rfl h
  · rfl

theorem extends_check (q : Token → Bool) : Extends more (check q) :=
  extends_of_stay (fun _ => rfl) fun c hc => by
    rw [check, sees_extend q hc]
    rfl

theorem extends_endsBlock : Extends more endsBlock :=
  extends_of_stay (fun _ => rfl) fun c hc => by
    obtain ⟨_ | ⟨t, rest⟩, endLine, loops, faults, n⟩ := c
    · exact absurd rfl hc
    · rfl

/-- A function declaration is known by two tokens, so the first token behind must not be a name. -/
theorem extends_startsFunction (hmore : ∀ t ∈ more.head?, t.isIdentifier = false) :
    Extends more startsFunction :=
  extends_of_stay (fun _ => rfl) fun c hc => by
    obtain ⟨_ | ⟨t, _ | ⟨t', rest⟩⟩, endLine, loops, faults, n⟩ := c
    · exact absurd rfl hc
    · cases more with
      | nil => rfl
      | cons t' more =>
        have ht' := hmore t' rfl
        simp [startsFunction, Cursor.extend, Cursor.sees, Cursor.seesSecond, Reply.extend, ht']
    · rfl

theorem extends_accept? (q : Token → Bool) : Extends more (accept? q) := by
  intro c hc
  obtain ⟨_ | ⟨t, rest⟩, endLine, loops, faults, n⟩ := c
  · have hle := (steady_accept? q ⟨more, endLine, loops, faults, n⟩).length_le
    rcases hc with hc | hc
    · exact absurd rfl hc
    · exact absurd hc (Nat.not_lt.2 hle)
  · simp only [accept?, Cursor.extend, List.cons_append]
    split <;> rfl

theorem extends_expect (q : Token → Bool) (what : Expected) : Extends more (expect q what) := by
  intro c hc
  obtain ⟨_ | ⟨t, rest⟩, endLine, loops, faults, n⟩ := c
  · have hle := (steady_expect q what ⟨more, endLine, loops, faults, n⟩).length_le
    rcases hc with hc | hc
    · exact absurd rfl hc
    · exact absurd hc (Nat.not_lt.2 hle)
  · simp only [expect, Cursor.extend, List.cons_append]
    split <;> rfl

theorem bind_rest_suffix (p : Production α) {f : α → Production β} (hf : ∀ a, (f a).Steady)
    (c : Cursor) : ((p >>= f) c).after.rest <:+ (p c).after.rest := by
  show (Production.bind p f c).after.rest <:+ _
  unfold Production.bind
  cases p c with
  | done a c' => exact (hf a c').rest
  | failed fault c' => exact List.suffix_refl _

theorem extends_bind {p : Production α} {f : α → Production β} (hp : Extends more p)
    (hsteady : ∀ a, (f a).Steady) (hf : ∀ a, Extends more (f a)) : Extends more (p >>= f) := by
  intro c hc
  have hfirst : StopsBefore more p c := by
    rcases hc with hc | hc
    · exact .inl fun hnil => hc (List.suffix_nil.1 (hnil ▸ bind_rest_suffix p hsteady c))
    · exact .inr (Nat.lt_of_lt_of_le hc (bind_rest_suffix p hsteady (c.extend more)).length_le)
  have hbind : ∀ c, (p >>= f) c = Production.bind p f c := fun _ => rfl
  unfold StopsBefore at hc
  rw [hbind, hbind] at hc ⊢
  unfold Production.bind at hc ⊢
  rw [hp c hfirst] at hc ⊢
  cases hreply : p c with
  | done a c' =>
    rw [hreply] at hc
    exact hf a c' hc
  | failed fault c' => rfl

theorem extends_look {next : Token → Option (Production α)} {other : Production α}
    (hsteady : ∀ t p, next t = some p → p.Steady) (hsteady' : other.Steady)
    (hnext : ∀ t p, next t = some p → Extends more p) (hother : Extends more other) :
    Extends more (look next other) := by
  intro c hc
  obtain ⟨_ | ⟨t, rest⟩, endLine, loops, faults, n⟩ := c
  · have hle := (steady_look hsteady hsteady' ⟨more, endLine, loops, faults, n⟩).length_le
    rcases hc with hc | hc
    · exact absurd (List.suffix_nil.1 (hsteady' ⟨[], endLine, loops, faults, n⟩).rest) hc
    · exact absurd hc (Nat.not_lt.2 hle)
  · unfold StopsBefore at hc
    simp only [look, Cursor.extend, List.cons_append] at hc ⊢
    split
    · next p hp =>
      rw [hp] at hc
      exact hnext t p hp ⟨rest, endLine, loops, faults, n⟩ hc
    · next hp =>
      rw [hp] at hc
      exact hother ⟨t :: rest, endLine, loops, faults, n⟩ hc

theorem extends_insideLoop (t : Token) (outside : SyntaxCause) {p : Production α}
    (hp : Extends more p) : Extends more (insideLoop t outside p) := by
  intro c hc
  unfold StopsBefore insideLoop at hc
  unfold insideLoop
  change (if c.loops = 0 then _ else _) = _
  split
  · rfl
  · next hloops =>
    rw [if_neg hloops, if_neg (show ¬(c.extend more).loops = 0 from hloops)] at hc
    exact hp c hc

theorem extends_withLoops {p : Production α} (enter : Nat → Nat) (leave : Nat → Nat → Nat)
    (hp : Extends more p) : Extends more (withLoops enter leave p) := by
  intro c hc
  have hrest : ∀ c : Cursor, (withLoops enter leave p c).after.rest =
      (p { c with loops := enter c.loops }).after.rest := by
    intro c
    unfold withLoops
    cases p { c with loops := enter c.loops } <;> rfl
  unfold StopsBefore at hc
  rw [hrest, hrest] at hc
  have hsame := hp { c with loops := enter c.loops } hc
  change (match p (({ c with loops := enter c.loops } : Cursor).extend more) with
    | .done a c' => _
    | .failed fault c' => _) = _
  rw [hsame, withLoops]
  cases p { c with loops := enter c.loops } <;> rfl

/-! Recovery stops in front of a token, or at the end of all. -/

theorem skipFrom_append {last : Token} {ts : List Token}
    (h : skipFrom last ts ≠ [] ∨ more.length < (skipFrom last (ts ++ more)).length) :
    skipFrom last (ts ++ more) = skipFrom last ts ++ more := by
  induction ts generalizing last with
  | nil =>
    rcases h with h | h
    · exact absurd rfl h
    · exact absurd h (Nat.not_lt.2 (skipFrom_suffix last more).length_le)
  | cons t ts ih =>
    rw [List.cons_append, skipFrom, skipFrom] at h ⊢
    split
    · rfl
    · next hstop =>
      rw [if_neg hstop, if_neg hstop] at h
      exact ih h

theorem resume_append {ts : List Token}
    (h : resume ts ≠ [] ∨ more.length < (resume (ts ++ more)).length) :
    resume (ts ++ more) = resume ts ++ more := by
  cases ts with
  | nil =>
    rcases h with h | h
    · exact absurd rfl h
    · exact absurd h (Nat.not_lt.2 (resume_suffix more).length_le)
  | cons t ts => exact skipFrom_append h

theorem extends_recovering {p : Production α} (hp : Extends more p) : Extends more (recovering p) := by
  intro c hc
  have hfirst : StopsBefore more p c := by
    unfold StopsBefore recovering at hc
    rcases hc with hc | hc
    · refine .inl fun hnil => hc ?_
      cases hreply : p c with
      | done a c' => rwa [hreply] at hnil
      | failed fault c' =>
        rw [hreply] at hnil
        show resume c'.rest = []
        rw [show c'.rest = [] from hnil]
        rfl
    · refine .inr (Nat.lt_of_lt_of_le hc ?_)
      cases hreply : p (c.extend more) with
      | done a c' => exact Nat.le_refl _
      | failed fault c' => exact (resume_suffix c'.rest).length_le
  have hsame := hp c hfirst
  unfold StopsBefore recovering at hc
  unfold recovering
  rw [hsame] at hc ⊢
  cases hreply : p c with
  | done a c' => rfl
  | failed fault c' =>
    rw [hreply] at hc
    simp only [Reply.extend, Reply.after, Cursor.extend] at hc ⊢
    rw [resume_append hc]

theorem Built.extends (hmore : ∀ t ∈ more.head?, t.isIdentifier = false) {last : Option Token}
    {seen : List Token} {p : Production α} (h : Built last seen p) : Extends more p := by
  induction h with
  | pure a => exact extends_of_stay (fun _ => rfl) fun _ _ => rfl
  | bind _ hf ihp ihf => exact extends_bind ihp (fun a => (hf a).steady) ihf
  | fail cause => exact extends_fail cause
  | noTarget => exact extends_of_stay (fun _ => rfl) fun _ _ => rfl
  | check q => exact extends_check q
  | endsBlock => exact extends_endsBlock
  | startsFunction => exact extends_startsFunction hmore
  | freshReference => exact extends_of_stay (fun _ => rfl) fun _ _ => rfl
  | expect q what => exact extends_expect q what
  | accept hnone hsome ihnone ihsome =>
    refine extends_bind (extends_accept? _) (fun o => ?_) fun o => ?_
    · cases o with
      | none => exact hnone.steady
      | some t => exact (hsome t).steady
    · cases o with
      | none => exact ihnone
      | some t => exact ihsome t
  | look hnext hother ihnext ihother =>
    exact extends_look (fun t p hp => (hnext t p hp).steady) hother.steady ihnext ihother
  | insideLoop _ ih => exact extends_insideLoop _ _ ih
  | withLoops _ _ ih => exact extends_withLoops _ _ ih
  | recovering _ ih => exact extends_recovering ih

/-! ### Expressions -/

variable {semicolon : Token}

/-- Whether a semicolon or nothing follows makes no difference to what is read. -/
structure Closed (semicolon : Token) (p : Production α) : Prop where
  steady : p.Steady
  done_iff : ∀ c a c', p c = .done a c' ↔
    p (c.extend [semicolon]) = .done a (c'.extend [semicolon])

theorem done_iff_of_extend {p : Production α} (h : p (c.extend more) = (p c).extend more) (a : α) :
    p c = .done a c' ↔ p (c.extend more) = .done a (c'.extend more) := by
  rw [h]
  cases p c with
  | done b c₁ =>
    constructor
    · intro hd
      cases hd
      rfl
    · intro hd
      injection hd with hb hc
      rw [hb, Cursor.extend_injective hc]
  | failed fault c₁ => exact ⟨nofun, nofun⟩

theorem closed_of_extend {p : Production α} (hp : p.Steady)
    (h : ∀ c : Cursor, p (c.extend [semicolon]) = (p c).extend [semicolon]) : Closed semicolon p :=
  ⟨hp, fun c a _ => done_iff_of_extend (h c) a⟩

theorem closed_of_fails {p : Production α} (hp : p.Steady) (h : ∀ c a c', p c ≠ .done a c') :
    Closed semicolon p :=
  ⟨hp, fun _ _ _ => ⟨fun hd => absurd hd (h _ _ _), fun hd => absurd hd (h _ _ _)⟩⟩

theorem closed_pure (a : α) : Closed semicolon (pure a) :=
  closed_of_extend (steady_pure a) fun _ => rfl

theorem closed_fail (cause : SyntaxCause) : Closed semicolon (fail cause : Production α) :=
  closed_of_fails (steady_fail cause) fun _ _ _ => nofun

theorem closed_failAt (t : Token) (cause : SyntaxCause) :
    Closed semicolon (failAt t cause : Production α) :=
  closed_of_fails (steady_failAt t cause) fun _ _ _ => nofun

theorem closed_freshReference : Closed semicolon freshReference :=
  closed_of_extend steady_freshReference fun _ => rfl

theorem closed_check {q : Token → Bool} (hq : q semicolon = false) : Closed semicolon (check q) := by
  refine closed_of_extend (steady_check q) fun c => ?_
  obtain ⟨_ | ⟨t, rest⟩, endLine, loops, faults, n⟩ := c
  · simp [check, Cursor.sees, Cursor.extend, Reply.extend, hq]
  · rfl

theorem closed_accept? {q : Token → Bool} (hq : q semicolon = false) :
    Closed semicolon (accept? q) := by
  refine closed_of_extend (steady_accept? q) fun c => ?_
  obtain ⟨_ | ⟨t, rest⟩, endLine, loops, faults, n⟩ := c
  · simp [accept?, Cursor.extend, Reply.extend, hq]
  · simp only [accept?, Cursor.extend, List.cons_append]
    split <;> rfl

theorem closed_expect {q : Token → Bool} (what : Expected) (hq : q semicolon = false) :
    Closed semicolon (expect q what) := by
  refine ⟨steady_expect q what, fun c t c' => ?_⟩
  obtain ⟨_ | ⟨t', rest⟩, endLine, loops, faults, n⟩ := c
  · simp [expect, Cursor.extend, hq]
  · refine done_iff_of_extend ?_ t
    simp only [expect, Cursor.extend, List.cons_append]
    split <;> rfl

theorem closed_bind {p : Production α} {f : α → Production β} (hp : Closed semicolon p)
    (hf : ∀ a, Closed semicolon (f a)) : Closed semicolon (p >>= f) := by
  refine ⟨steady_bind hp.steady fun a => (hf a).steady, fun c b c' => ?_⟩
  constructor
  · intro h
    obtain ⟨a, c₁, h₁, h₂⟩ := bind_done h
    show Production.bind p f _ = _
    rw [Production.bind, (hp.done_iff c a c₁).1 h₁]
    exact ((hf a).done_iff c₁ b c').1 h₂
  · intro h
    obtain ⟨a, d, h₁, h₂⟩ := bind_done h
    obtain ⟨c₁, rfl⟩ := Cursor.exists_extend_of_suffix ((hf a).steady.of_done h₂).rest
    show Production.bind p f _ = _
    rw [Production.bind, (hp.done_iff c a c₁).2 h₁]
    exact ((hf a).done_iff c₁ b c').2 h₂

/-- What is closed by a token of its own has not come to the semicolon before that. -/
theorem closed_before {p : Production α} {q : Token → Bool} {what : Expected}
    {f : α → Token → Production β} (hp : p.Composed) (hs : semicolon.isIdentifier = false)
    (hq : q semicolon = false) (hf : ∀ a t, Closed semicolon (f a t)) :
    Closed semicolon (p >>= fun a => expect q what >>= f a) := by
  have hclose : ∀ a, Closed semicolon (expect q what >>= f a) := fun a =>
    closed_bind (closed_expect what hq) (hf a)
  have hextends : Extends [semicolon] p := (hp none []).extends fun t ht => by
    cases ht
    exact hs
  refine ⟨steady_bind hp.steady fun a => (hclose a).steady, fun c b c' => ?_⟩
  have hbind : ∀ c, (p >>= fun a => expect q what >>= f a) c =
      Production.bind p (fun a => expect q what >>= f a) c := fun _ => rfl
  rw [hbind, hbind]
  constructor
  · intro h
    obtain ⟨a, c₁, h₁, h₂⟩ := bind_done h
    obtain ⟨t, c₂, h₃, -⟩ := bind_done h₂
    obtain ⟨-, rfl⟩ := expect_done h₃
    -- The closing token is left behind `p`, which has not seen the end then.
    have hsame := hextends c (.inl (by rw [h₁]; exact List.cons_ne_nil _ _))
    rw [Production.bind, hsame, h₁]
    exact ((hclose a).done_iff _ b c').1 h₂
  · intro h
    obtain ⟨a, d, h₁, h₂⟩ := bind_done h
    obtain ⟨t, d₂, h₃, h₄⟩ := bind_done h₂
    obtain ⟨-, rfl⟩ := expect_done h₃
    -- The semicolon is left at the end, so the closing token stood before it.
    have hlen := ((hf a t).steady.of_done h₄).length_le
    rw [Cursor.extend, List.length_append] at hlen
    have hsame := hextends c (.inr (by
      rw [h₁]
      exact Nat.lt_succ_of_le (Nat.le_trans (Nat.le_add_left _ _) hlen)))
    rw [hsame] at h₁
    rw [Production.bind]
    cases hreply : p c with
    | done a' c₁ =>
      rw [hreply] at h₁
      injection h₁ with ha hc
      subst ha
      rw [← hc] at h₂
      exact ((hclose a').done_iff c₁ b c').2 h₂
    | failed fault c₁ =>
      rw [hreply] at h₁
      cases h₁

theorem closed_accepting {q : Token → Bool} {f : Option Token → Production β}
    (hq : q semicolon = false) (hnone : Closed semicolon (f none))
    (hsome : ∀ t, Closed semicolon (f (some t))) : Closed semicolon (accept? q >>= f) := by
  refine closed_bind (closed_accept? hq) fun o => ?_
  cases o with
  | none => exact hnone
  | some t => exact hsome t

theorem closed_look {next : Token → Option (Production α)} {cause : SyntaxCause}
    (hnext : ∀ t p, next t = some p → Closed semicolon p) (hsemicolon : next semicolon = none) :
    Closed semicolon (look next (fail cause)) := by
  refine ⟨steady_look (fun t p hp => (hnext t p hp).steady) (steady_fail cause), fun c a c' => ?_⟩
  obtain ⟨_ | ⟨t, rest⟩, endLine, loops, faults, n⟩ := c
  · simp [look, Cursor.extend, hsemicolon, fail]
  · simp only [look, Cursor.extend, List.cons_append]
    split
    · next p hp => exact (hnext t p hp).done_iff ⟨rest, endLine, loops, faults, n⟩ a c'
    · exact ⟨nofun, nofun⟩

theorem closed_withLoops {p : Production α} {enter : Nat → Nat} {leave : Nat → Nat → Nat}
    (hback : ∀ n, leave n (enter n) = n) (hp : Closed semicolon p) :
    Closed semicolon (withLoops enter leave p) := by
  have hdone : ∀ c a c', withLoops enter leave p c = .done a c' ↔
      ∃ c₁, p { c with loops := enter c.loops } = .done a c₁ ∧
        { c₁ with loops := leave c.loops c₁.loops } = c' := by
    intro c a c'
    unfold withLoops
    cases p { c with loops := enter c.loops } with
    | done b c₁ =>
      constructor
      · intro h
        cases h
        exact ⟨c₁, rfl, rfl⟩
      · rintro ⟨_, h, rfl⟩
        cases h
        rfl
    | failed fault c₁ => exact ⟨nofun, fun ⟨_, h, _⟩ => nomatch h⟩
  refine ⟨steady_withLoops hback hp.steady, fun c a c' => ?_⟩
  rw [hdone, hdone]
  constructor
  · rintro ⟨c₁, h, rfl⟩
    exact ⟨c₁.extend [semicolon], (hp.done_iff _ a c₁).1 h, rfl⟩
  · rintro ⟨d, h, hd⟩
    have hrest : d.rest = c'.rest ++ [semicolon] := congrArg Cursor.rest hd
    obtain ⟨c₁, rfl⟩ := Cursor.exists_extend ⟨c'.rest, hrest⟩
    exact ⟨c₁, (hp.done_iff _ a c₁).2 h, Cursor.extend_injective hd⟩

/-- The productions of expressions, and what nests in them. -/
structure AllClosed (semicolon : Token) (fuel : Nat) : Prop where
  expression : Closed semicolon (expression fuel)
  ternary : Closed semicolon (ternary fuel)
  binary : ∀ levels, Closed semicolon (binary fuel levels)
  binaryRest : ∀ level tighter left, Closed semicolon (binaryRest fuel level tighter left)
  unary : Closed semicolon (unary fuel)
  callRest : ∀ callee, Closed semicolon (callRest fuel callee)
  arguments : ∀ closing what, closing ≠ .semicolon → Closed semicolon (arguments fuel closing what)
  argumentList : ∀ allowed, Closed semicolon (argumentList fuel allowed)
  primary : Closed semicolon (primary fuel)
  functionTail : ∀ kind name keyword, Closed semicolon (functionTail fuel kind name keyword)
  block : Closed semicolon (block fuel)

theorem allClosed_zero : AllClosed semicolon 0 := by
  constructor <;> intros <;> exact closed_fail _

section

variable {fuel : Nat} (hs : semicolon.isSymbol .semicolon) (ih : AllClosed semicolon fuel)

include hs

theorem closed_symbol {s : Symbol} (what : Expected) (h : s ≠ .semicolon) :
    Closed semicolon (symbol s what) :=
  closed_expect what (Token.isSymbol_ne hs h.symm)

theorem closed_identifier (what : Expected) : Closed semicolon (identifier what) :=
  closed_expect what (by simp [Token.isIdentifier, Token.isSymbol_iff.1 hs])

theorem closed_parameters (allowed : Nat) : Closed semicolon (parameters allowed) := by
  induction allowed with
  | zero => exact closed_fail _
  | succ allowed ih =>
    rw [parameters]
    exact closed_bind (closed_identifier hs _) fun _ =>
      closed_accepting (Token.isSymbol_ne hs (by decide)) (closed_pure _) fun _ =>
        closed_bind ih fun _ => closed_pure _

include ih

theorem closed_expression : Closed semicolon (expression (fuel + 1)) := by
  rw [expression]
  refine closed_bind ih.ternary fun target =>
    closed_accepting (Token.isSymbol_ne hs (by decide)) (closed_pure _) fun equals => ?_
  refine closed_bind ih.expression fun value => ?_
  cases target with
  | «variable» => exact closed_bind closed_freshReference fun _ => closed_pure _
  | get => exact closed_pure _
  | _ => exact closed_failAt _ _

theorem closed_ternary : Closed semicolon (ternary (fuel + 1)) := by
  rw [ternary]
  refine closed_bind (ih.binary _) fun _ =>
    closed_accepting (Token.isSymbol_ne hs (by decide)) (closed_pure _) fun _ => ?_
  exact closed_bind ih.ternary fun _ => closed_bind (closed_symbol hs _ (by decide)) fun _ =>
    closed_bind ih.ternary fun _ => closed_pure _

omit hs in
theorem closed_binary (levels : List Level) : Closed semicolon (binary (fuel + 1) levels) := by
  cases levels with
  | nil => rw [binary]; exact ih.unary
  | cons level tighter =>
    rw [binary]
    exact closed_bind (ih.binary _) fun left => ih.binaryRest level tighter left

theorem closed_binaryRest (level : Level) (tighter : List Level) (left : Expr) :
    Closed semicolon (binaryRest (fuel + 1) level tighter left) := by
  have hlevel : level.hasOperator semicolon = false := by
    cases level <;> simp [Level.hasOperator, Token.isSymbol_iff.1 hs]
  rw [binaryRest]
  exact closed_accepting hlevel (closed_pure _) fun _ =>
    closed_bind (ih.binary _) fun _ => ih.binaryRest _ _ _

theorem closed_unary : Closed semicolon (unary (fuel + 1)) := by
  have hkind := Token.isSymbol_iff.1 hs
  have hprefix : isPrefixOperator semicolon = false := by
    simp [isPrefixOperator, Token.isSymbol, hkind]
  have hpostfix : isPostfixOperator semicolon = false := by
    simp [isPostfixOperator, Token.isSymbol, hkind]
  rw [unary]
  refine closed_accepting hprefix ?_ fun _ => closed_bind ih.unary fun _ => closed_pure _
  exact closed_bind ih.primary fun _ => closed_bind (ih.callRest _) fun _ =>
    closed_accepting hpostfix (closed_pure _) fun _ => closed_pure _

theorem closed_callRest (callee : Expr) : Closed semicolon (callRest (fuel + 1) callee) := by
  rw [callRest]
  refine closed_accepting (Token.isSymbol_ne hs (by decide)) ?_ fun _ =>
    closed_bind (ih.arguments _ _ (by decide)) fun _ => ih.callRest _
  refine closed_accepting (Token.isSymbol_ne hs (by decide)) ?_ fun _ => closed_bind ih.expression fun _ =>
    closed_bind (closed_symbol hs _ (by decide)) fun _ => ih.callRest _
  exact closed_accepting (Token.isSymbol_ne hs (by decide)) (closed_pure _) fun _ =>
    closed_bind (closed_identifier hs _) fun _ => ih.callRest _

theorem closed_arguments (closing : Symbol) (what : Expected) (hclosing : closing ≠ .semicolon) :
    Closed semicolon (arguments (fuel + 1) closing what) := by
  rw [arguments]
  refine closed_bind (closed_check (Token.isSymbol_ne hs hclosing.symm)) fun closes => ?_
  have hclose : ∀ values : List Expr, Closed semicolon (do
      let close ← symbol closing what
      return (values, close)) := fun _ =>
    closed_bind (closed_symbol hs what hclosing) fun _ => closed_pure _
  cases closes with
  | true => exact closed_bind (closed_pure _) hclose
  | false => exact closed_bind (ih.argumentList _) hclose

theorem closed_argumentList (allowed : Nat) :
    Closed semicolon (argumentList (fuel + 1) allowed) := by
  cases allowed with
  | zero => rw [argumentList]; exact closed_fail _
  | succ allowed =>
    rw [argumentList]
    exact closed_bind ih.expression fun _ =>
      closed_accepting (Token.isSymbol_ne hs (by decide)) (closed_pure _) fun _ =>
        closed_bind (ih.argumentList _) fun _ => closed_pure _

theorem closed_operandBehind {t : Token} {p : Production Expr}
    (h : operandBehind fuel t = some p) : Closed semicolon p := by
  unfold operandBehind at h
  split at h <;> cases h
  · exact closed_pure _
  · exact closed_pure _
  · exact closed_pure _
  · exact closed_pure _
  · exact closed_pure _
  · exact closed_bind closed_freshReference fun _ => closed_pure _
  · exact closed_bind closed_freshReference fun _ => closed_pure _
  · exact closed_bind ih.expression fun _ => closed_bind (closed_symbol hs _ (by decide)) fun _ =>
      closed_pure _
  · exact closed_bind (ih.arguments _ _ (by decide)) fun _ => closed_pure _
  · exact closed_bind (closed_symbol hs _ (by decide)) fun _ => closed_bind (ih.functionTail _ _ _)
      fun _ => closed_pure _

theorem closed_primary : Closed semicolon (primary (fuel + 1)) := by
  rw [primary_eq_look]
  exact closed_look (fun _ _ => closed_operandBehind hs ih)
    (by rw [operandBehind, Token.isSymbol_iff.1 hs])

theorem closed_functionTail (kind : FunctionKind) (name : Option Token) (keyword : Token) :
    Closed semicolon (functionTail (fuel + 1) kind name keyword) := by
  rw [functionTail]
  refine closed_bind (closed_check (Token.isSymbol_ne hs (by decide))) fun closes => ?_
  have hbody : ∀ names : List Token, Closed semicolon (do
      let _ ← symbol .rightParen .closeParameters
      let _ ← symbol .leftBrace (.openFunctionBody kind)
      let body ← withLoops (fun _ => 0) (fun before _ => before) (block fuel)
      return (⟨name, names, body, keyword⟩ : FunctionDecl)) := fun _ =>
    closed_bind (closed_symbol hs _ (by decide)) fun _ => closed_bind (closed_symbol hs _ (by decide)) fun _ =>
      closed_bind (closed_withLoops (fun _ => rfl) ih.block) fun _ => closed_pure _
  cases closes with
  | true => exact closed_bind (closed_pure _) hbody
  | false => exact closed_bind (closed_parameters hs _) hbody

omit ih in
theorem closed_block : Closed semicolon (block (fuel + 1)) := by
  rw [block]
  exact closed_before (allComposed fuel).declarations
    (by simp [Token.isIdentifier, Token.isSymbol_iff.1 hs]) (Token.isSymbol_ne hs (by decide))
    fun _ _ => closed_pure _

end

/-- An expression is read alike in front of a semicolon and at the end of the source. -/
theorem allClosed (hs : semicolon.isSymbol .semicolon) (fuel : Nat) : AllClosed semicolon fuel := by
  induction fuel with
  | zero => exact allClosed_zero
  | succ fuel ih =>
    exact ⟨closed_expression hs ih, closed_ternary hs ih, closed_binary ih,
      closed_binaryRest hs ih, closed_unary hs ih, closed_callRest hs ih, closed_arguments hs ih,
      closed_argumentList hs ih, closed_primary hs ih, closed_functionTail hs ih, closed_block hs⟩

end Production

end TreeWalk
