import TreeWalk.Proofs.Occurrences
import TreeWalk.Proofs.Visits

/-!
# What surrounds a place

While a tree is walked, the context says about a place what the path to the place and the occurrences
before it say (`Context.Agrees`): a name has an entry in the innermost scope if it was declared there
before, and is marked while its initial value is walked.

Scopes that were left are not seen again, because every part of the tree is walked once: no
occurrence before a part lies inside of it (`Fresh`).
-/

namespace TreeWalk

variable {c c' : Context} {p : Path} {s t : Segment} {before os : List Occurrence}

/-! ### Parts that were not walked yet -/

/-- Of the occurrences before the part at `p`, only those at `p` itself lie in it. -/
def Fresh (p : Path) (before : List Occurrence) : Prop :=
  ∀ o ∈ before, p <:+ o.path → o.path = p

theorem Fresh.cons (h : Fresh p before) (s : Segment) : Fresh (s :: p) before := by
  intro o ho hsuffix
  have hp := h o ho ((List.suffix_cons s p).trans hsuffix)
  rw [hp] at hsuffix
  exact absurd hsuffix.length_le (Nat.not_succ_le_self _)

theorem Fresh.declarationsAt (h : Fresh p before) (names : List Token) :
    Fresh p (before ++ declarationsAt names p) := by
  intro o ho hsuffix
  rcases List.mem_append.1 ho with ho | ho
  · exact h o ho hsuffix
  · obtain ⟨name, -, rfl⟩ := List.mem_map.1 ho
    rfl

theorem Fresh.singleton (h : Fresh p before) (use : Use) (t : Token) :
    Fresh p (before ++ [⟨use, t, p⟩]) := by
  intro o ho hsuffix
  rcases List.mem_append.1 ho with ho | ho
  · exact h o ho hsuffix
  · rw [List.mem_singleton.1 ho]

/-- A part is still fresh after another one beside it. -/
theorem Fresh.sibling (h : Fresh (t :: p) before) (hos : Inside (s :: p) os) (hne : s ≠ t) :
    Fresh (t :: p) (before ++ os) := by
  intro o ho hsuffix
  rcases List.mem_append.1 ho with ho | ho
  · exact h o ho hsuffix
  · have hle : s :: p <:+ t :: p :=
      List.suffix_of_suffix_length_le (hos o ho) hsuffix (Nat.le_refl _)
    exact absurd (List.cons.inj (hle.eq_of_length rfl)).1 hne

/-! ### The innermost scope -/

namespace Context

variable {x : String}

/-- Whether `x` is in the innermost scope. -/
def declares (c : Context) (x : String) : Bool :=
  match c.scopes with
  | [] => false
  | scope :: _ => scope.contains x

theorem scopes_mark (name : Token) (b : Bool) : (c.mark name b).scopes = [] ↔ c.scopes = [] := by
  unfold mark
  split
  · rfl
  · next h => simp [h]

theorem declares_mark (name : Token) (b : Bool) : (c.mark name b).declares x = true ↔
    c.scopes ≠ [] ∧ (name.lexeme = x ∨ c.declares x = true) := by
  obtain ⟨_ | ⟨scope, outer⟩, body, inClass⟩ := c
  · simp [mark, declares]
  · simp [mark, declares, Table.contains_set]

theorem isPending_mark (name : Token) (b : Bool) : (c.mark name b).isPending x = true ↔
    c.scopes ≠ [] ∧ if name.lexeme = x then b = false else c.isPending x = true := by
  obtain ⟨_ | ⟨scope, outer⟩, body, inClass⟩ := c
  · simp [mark, isPending]
  · by_cases hx : name.lexeme = x
    · simp [mark, isPending, hx]
    · simp [mark, isPending, hx, Table.get?_set_ne hx]

theorem declared_nil (h : c.scopes = []) (names : List Token) : c.declared names = c := by
  induction names with
  | nil => rfl
  | cons name names ih =>
    rw [declared, List.foldl_cons, mark_nil h]
    exact ih

theorem isPending_declared (names : List Token) (h : (c.declared names).isPending x = true) :
    (∃ name ∈ names, name.lexeme = x) ∨ c.isPending x = true := by
  induction names generalizing c with
  | nil => exact .inr h
  | cons name names ih =>
    rcases ih h with ⟨name', hmem, hname⟩ | hpending
    · exact .inl ⟨name', List.mem_cons_of_mem _ hmem, hname⟩
    · by_cases hx : name.lexeme = x
      · exact .inl ⟨name, List.mem_cons_self, hx⟩
      · rw [isPending_mark, if_neg hx] at hpending
        exact .inr hpending.2

theorem declared_isPending {names : List Token} (hscopes : c.scopes ≠ [])
    (h : (∃ name ∈ names, name.lexeme = x) ∨ c.isPending x = true) :
    (c.declared names).isPending x = true := by
  induction names generalizing c with
  | nil =>
    rcases h with ⟨name, hmem, -⟩ | hpending
    · cases hmem
    · exact hpending
  | cons name names ih =>
    refine ih (fun hnil => hscopes ((scopes_mark name false).1 hnil)) ?_
    by_cases hx : name.lexeme = x
    · exact .inr ((isPending_mark name false).2 ⟨hscopes, by rw [if_pos hx]⟩)
    · rcases h with ⟨name', hmem, rfl⟩ | hpending
      · rcases List.mem_cons.1 hmem with rfl | hmem
        · exact absurd rfl hx
        · exact .inl ⟨name', hmem, rfl⟩
      · exact .inr ((isPending_mark name false).2 ⟨hscopes, by rwa [if_neg hx]⟩)

theorem isPending_defined (names : List Token) (h : (c.defined names).isPending x = true) :
    c.isPending x = true ∧ ∀ name ∈ names, name.lexeme ≠ x := by
  induction names generalizing c with
  | nil => exact ⟨h, nofun⟩
  | cons name names ih =>
    obtain ⟨hpending, hnames⟩ := ih h
    have hmark := ((isPending_mark name true).1 hpending).2
    by_cases hx : name.lexeme = x
    · rw [if_pos hx] at hmark
      cases hmark
    · rw [if_neg hx] at hmark
      exact ⟨hmark, List.forall_mem_cons.2 ⟨hx, hnames⟩⟩

theorem isPending_introduced (names : List Token) (h : (c.introduced names).isPending x = true) :
    c.isPending x = true := by
  induction names generalizing c with
  | nil => exact h
  | cons name names ih =>
    have hmark := ((isPending_mark name true).1 (ih h)).2
    by_cases hx : name.lexeme = x
    · rw [if_pos hx] at hmark
      cases hmark
    · rw [if_neg hx, isPending_mark, if_neg hx] at hmark
      exact hmark.2

end Context

/-! ### What a context says about a place -/

/-- The body of the nearest function. -/
def Path.body (p : Path) : Body :=
  match p.functions with
  | [] => .none
  | (_, false) :: _ => .function
  | (none, true) :: _ => .method
  | (some name, true) :: _ => if name.lexeme = initializerName then .initializer else .method

def Path.InMethod (p : Path) : Prop :=
  ∃ f ∈ p.functions, f.2 = true

namespace Path

theorem body_eq_none : p.body = .none ↔ p.functions = [] := by
  unfold body
  split
  · next h => simp [h]
  · next h => simp [h]
  · next h => simp [h]
  · next h =>
    split <;> simp [h]

theorem body_eq_initializer : p.body = .initializer ↔
    ∃ name outer, p.functions = (some name, true) :: outer ∧ name.lexeme = initializerName := by
  unfold body
  split
  · next h => simp [h]
  · next h => simp [h]
  · next h => simp [h]
  · next name outer h =>
    by_cases hname : name.lexeme = initializerName
    · simp [h, hname]
    · simp [h, hname]

end Path

namespace Context

/-- The context has the surroundings of the place at `p`, and in the innermost scope the names declared
there in `before`. -/
structure Knows (c : Context) (p : Path) (before : List Occurrence) : Prop where
  body : c.body = p.body
  inClass : c.inClass = true ↔ p.InMethod
  isGlobal : c.scopes = [] ↔ p.scope = []
  declared : ∀ x, c.declares x = true ↔ p.scope ≠ [] ∧ ∃ o ∈ before,
    o.use = .declaration ∧ o.path.scope = p.scope ∧ o.token.lexeme = x

/-- The names marked are those in whose initial values the place lies. -/
structure Agrees (c : Context) (p : Path) (before : List Occurrence) : Prop
    extends Knows c p before where
  pending : ∀ x, c.isPending x = true ↔ p.scope ≠ [] ∧ ∃ name ∈ p.awaited, name.lexeme = x

/-- Occurrences that declare nothing in the scope at hand. -/
theorem Knows.append (h : Knows c p before) (hos : Deep p os) : Knows c p (before ++ os) := by
  refine ⟨h.body, h.inClass, h.isGlobal, fun x => (h.declared x).trans ?_⟩
  constructor
  · rintro ⟨hlocal, o, ho, hrest⟩
    exact ⟨hlocal, o, List.mem_append_left _ ho, hrest⟩
  · rintro ⟨hlocal, o, ho, huse, hscope, hname⟩
    rcases List.mem_append.1 ho with ho | ho
    · exact ⟨hlocal, o, ho, huse, hscope, hname⟩
    · have hdeep := hos.declares o ho huse
      rw [hscope] at hdeep
      exact absurd (Path.scope_suffix p).length_le (Nat.not_le_of_lt hdeep)

theorem Agrees.append (h : Agrees c p before) (hos : Deep p os) : Agrees c p (before ++ os) :=
  ⟨h.toKnows.append hos, h.pending⟩

theorem Knows.step (hs : s.opensScope = false) : Knows c (s :: p) before ↔ Knows c p before := by
  have hscope : Path.scope (s :: p) = p.scope := by
    rw [Path.scope, hs]
    rfl
  have hfunctions : Path.functions (s :: p) = p.functions := by
    cases s with
    | part | initial => rfl
    | block | function | body => cases hs
  have hbody : Path.body (s :: p) = p.body := by rw [Path.body, hfunctions, Path.body]
  have hmethod : Path.InMethod (s :: p) ↔ p.InMethod := by
    rw [Path.InMethod, hfunctions, Path.InMethod]
  constructor
  · intro h
    exact ⟨hbody ▸ h.body, h.inClass.trans hmethod, hscope ▸ h.isGlobal, hscope ▸ h.declared⟩
  · intro h
    exact ⟨hbody ▸ h.body, h.inClass.trans hmethod.symm, hscope ▸ h.isGlobal, hscope ▸ h.declared⟩

theorem Agrees.part {i : Nat} : Agrees c (.part i :: p) before ↔ Agrees c p before := by
  constructor
  · rintro ⟨hknows, hpending⟩
    exact ⟨(Knows.step rfl).1 hknows, hpending⟩
  · rintro ⟨hknows, hpending⟩
    exact ⟨(Knows.step rfl).2 hknows, hpending⟩

/-- Where a scope opens, it is empty. -/
theorem Knows.opened (hs : s.opensScope) (hbody : c.body = Path.body (s :: p))
    (hclass : c.inClass = true ↔ Path.InMethod (s :: p)) (hf : Fresh p before) :
    Agrees (c.enter []) (s :: p) before := by
  have hscope : Path.scope (s :: p) = s :: p := by
    rw [Path.scope, hs]
    rfl
  have hawaited : Path.awaited (s :: p) = [] := by
    cases s with
    | part | initial => cases hs
    | block | function | body => rfl
  refine ⟨⟨hbody, hclass, by simp [enter, hscope], fun x => ?_⟩, fun x => ?_⟩
  · constructor
    · intro h
      cases h
    · rintro ⟨-, o, ho, -, ho', -⟩
      -- The occurrence would lie in a part that is still to come.
      have hsuffix : s :: p <:+ o.path := by
        rw [← hscope, ← ho']
        exact Path.scope_suffix _
      have heq := hf o ho ((List.suffix_cons s p).trans hsuffix)
      rw [heq] at hsuffix
      exact absurd hsuffix.length_le (Nat.not_succ_le_self _)
  · rw [hawaited]
    simp [isPending, enter, Table.get?]

/-! ### Declarations -/

/-- The name has been added to the scope at `p`. -/
theorem Knows.mark (h : Knows c p before) (name : Token) (b : Bool) :
    Knows (c.mark name b) p (before ++ [⟨.declaration, name, p⟩]) := by
  have hclass : (c.mark name b).inClass = c.inClass := by
    unfold Context.mark
    split <;> rfl
  refine ⟨(body_mark c name b).trans h.body, hclass ▸ h.inClass,
    (scopes_mark name b).trans h.isGlobal, fun x => ?_⟩
  rw [declares_mark, Ne, h.isGlobal, h.declared x]
  constructor
  · rintro ⟨hlocal, hname | ⟨-, o, ho, hrest⟩⟩
    · have hmem : ⟨.declaration, name, p⟩ ∈ before ++ [⟨.declaration, name, p⟩] := by simp
      exact ⟨hlocal, _, hmem, rfl, rfl, hname⟩
    · exact ⟨hlocal, o, List.mem_append_left _ ho, hrest⟩
  · rintro ⟨hlocal, o, ho, huse, hscope, hname⟩
    rcases List.mem_append.1 ho with ho | ho
    · exact ⟨hlocal, .inr ⟨hlocal, o, ho, huse, hscope, hname⟩⟩
    · rw [List.mem_singleton.1 ho] at hname
      exact ⟨hlocal, .inl hname⟩

/-- Marking a name once more makes no difference to what is declared. -/
theorem Knows.define {name : Token} (h : Knows c p before)
    (hmem : ⟨.declaration, name, p⟩ ∈ before) : Knows (c.define name) p before := by
  have hmark := h.mark name true
  refine ⟨hmark.body, hmark.inClass, hmark.isGlobal, fun x => (hmark.declared x).trans ?_⟩
  constructor
  · rintro ⟨hlocal, o, ho, hrest⟩
    rcases List.mem_append.1 ho with ho | ho
    · exact ⟨hlocal, o, ho, hrest⟩
    · rw [List.mem_singleton.1 ho] at hrest
      exact ⟨hlocal, _, hmem, hrest⟩
  · rintro ⟨hlocal, o, ho, hrest⟩
    exact ⟨hlocal, o, List.mem_append_left _ ho, hrest⟩

theorem Knows.defined {names : List Token} (h : Knows c p before)
    (hmem : ∀ name ∈ names, ⟨.declaration, name, p⟩ ∈ before) :
    Knows (c.defined names) p before := by
  induction names generalizing c with
  | nil => exact h
  | cons name names ih =>
    obtain ⟨hname, hnames⟩ := List.forall_mem_cons.1 hmem
    exact ih (h.define hname) hnames

end Context

end TreeWalk
