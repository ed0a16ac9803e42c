import TreeWalk.Proofs.Surroundings

/-!
# The walk finds the first misuse

The walk over scopes rejects a tree exactly if an occurrence in it is a misuse, and what it reports
is the first one (`resolveProgram_judges`). Each part of the tree is walked in a context that says
what surrounds the part (`Stands`), and so the checks of the walk are those of `Occurrence.Misuses`.
-/

namespace TreeWalk

variable {c c' : Context} {p : Path} {s t : Segment} {before os os' : List Occurrence}

/-! ### Walks and occurrences -/

namespace Walk

variable {α β : Type} {good : α → Prop} {good' : β → Prop}

/-- The walk passes, with something `good`, if none of `os` is a misuse after `before`; otherwise it
is rejected for the first one. -/
def Judges (w : Walk α) (before os : List Occurrence) (good : α → Prop) : Prop :=
  ∀ d, (∃ a d', w d = .passed a d' ∧ Clean before os ∧ good a) ∨
    ∃ fault d', w d = .rejected fault d' ∧ Meets before os fault

theorem judges_pure {a : α} (h : good a) : Judges (pure a) before [] good :=
  fun d => .inl ⟨a, d, rfl, clean_nil, h⟩

theorem judges_reject {o : Occurrence} {cause : ScopeCause} (h : o.Misuses before cause) :
    Judges (reject cause o.token) before [o] good :=
  fun d => .inr ⟨_, d, rfl, meets_singleton h⟩

theorem Judges.mono {good' : α → Prop} {w : Walk α} (h : w.Judges before os good)
    (hgood : ∀ a, good a → good' a) : w.Judges before os good' := by
  intro d
  rcases h d with ⟨a, d', hw, hclean, ha⟩ | hrejected
  · exact .inl ⟨a, d', hw, hclean, hgood a ha⟩
  · exact .inr hrejected

theorem Judges.bind {w : Walk α} {f : α → Walk β} (hw : w.Judges before os good)
    (hf : ∀ a, good a → (f a).Judges (before ++ os) os' good') :
    Judges (w >>= f) before (os ++ os') good' := by
  intro d
  show (∃ b d', Walk.bind w f d = .passed b d' ∧ _) ∨ ∃ fault d', Walk.bind w f d = _ ∧ _
  rw [Walk.bind]
  rcases hw d with ⟨a, d₁, hd, hclean, ha⟩ | ⟨fault, d₁, hd, hmeets⟩
  · simp only [hd]
    rcases hf a ha d₁ with ⟨b, d₂, hd₂, hclean', hb⟩ | ⟨fault, d₂, hd₂, hmeets⟩
    · exact .inl ⟨b, d₂, hd₂, hclean.append hclean', hb⟩
    · exact .inr ⟨fault, d₂, hd₂, hmeets.append_right hclean⟩
  · simp only [hd]
    exact .inr ⟨fault, d₁, rfl, hmeets.append_left os'⟩

/-- What comes after the walk meets no occurrence. -/
theorem Judges.andThen {w : Walk α} {f : α → Walk β} (hw : w.Judges before os good)
    (hf : ∀ a, good a → (f a).Judges (before ++ os) [] good') :
    Judges (w >>= f) before os good' := by
  have h := hw.bind hf
  rwa [List.append_nil] at h

/-- An occurrence that is checked first. -/
theorem Judges.after {w : Walk α} {o : Occurrence} (ho : ∀ cause, ¬o.Misuses before cause)
    (hw : w.Judges (before ++ [o]) os good) : w.Judges before (o :: os) good := by
  intro d
  have hclean := clean_singleton ho
  rcases hw d with ⟨a, d', hd, hclean', ha⟩ | ⟨fault, d', hd, hmeets⟩
  · exact .inl ⟨a, d', hd, hclean.append hclean', ha⟩
  · exact .inr ⟨fault, d', hd, hmeets.append_right hclean⟩

end Walk

theorem Context.judges_locate (c : Context) (reference : Nat) (name : Token) :
    (c.locate reference name).Judges before [] fun _ => True := by
  unfold Context.locate
  split
  · exact fun d => .inl ⟨(), _, rfl, clean_nil, trivial⟩
  · exact Walk.judges_pure trivial

/-! ### Declarations -/

namespace Context

/-- A name that the scope has already is rejected. -/
theorem Knows.judges_declare (h : Knows c p before) (name : Token) :
    (c.declare name).Judges before [⟨.declaration, name, p⟩]
      (fun c' => c' = c.mark name false) := by
  unfold Context.declare
  cases hscopes : c.scopes with
  | nil =>
    refine Walk.Judges.after ?_ (Walk.judges_pure (mark_nil hscopes name false).symm)
    intro cause hmisuse
    cases hmisuse with
    | alreadyDeclared huse hlocal => exact hlocal (h.isGlobal.1 hscopes)
    | readInInitializer huse | returnAtTopLevel huse | valueFromInitializer huse
    | thisOutsideClass huse => cases huse
  | cons scope outer =>
    have hdeclared := h.declared name.lexeme
    rw [declares, hscopes] at hdeclared
    dsimp only
    split
    · next hcontains =>
      obtain ⟨hlocal, o, ho, huse, hscope, hname⟩ := hdeclared.1 hcontains
      have hmisuse : Occurrence.Misuses before ⟨.declaration, name, p⟩ .alreadyDeclared :=
        .alreadyDeclared rfl hlocal ho huse hscope hname
      exact Walk.judges_reject hmisuse
    · next hcontains =>
      refine Walk.Judges.after ?_ (Walk.judges_pure rfl)
      intro cause hmisuse
      cases hmisuse with
      | alreadyDeclared _ hlocal ho huse hscope hname =>
        exact hcontains (hdeclared.2 ⟨hlocal, _, ho, huse, hscope, hname⟩)
      | readInInitializer huse | returnAtTopLevel huse | valueFromInitializer huse
      | thisOutsideClass huse => cases huse

theorem Knows.judges_addAll {behind : Context → Token → Context}
    (hbehind : ∀ {c before name}, Knows c p before → ⟨.declaration, name, p⟩ ∈ before →
      Knows (behind c name) p before) (h : Knows c p before) (names : List Token) :
    (c.addAll behind names).Judges before (declarationsAt names p) fun c' =>
      c' = names.foldl (fun c name => behind (c.mark name false) name) c ∧
        Knows c' p (before ++ declarationsAt names p) := by
  induction names generalizing c before with
  | nil =>
    refine Walk.judges_pure ⟨rfl, ?_⟩
    rwa [declarationsAt, List.map_nil, List.append_nil]
  | cons name names ih =>
    rw [addAll]
    refine (h.judges_declare name).bind ?_
    rintro _ rfl
    refine (ih (hbehind (h.mark name false) (by simp))).mono ?_
    rintro _ ⟨rfl, hknows⟩
    rw [List.append_assoc] at hknows
    exact ⟨rfl, hknows⟩

end Context

/-! ### Parts of a tree -/

open Context

/-- The context at a part that is still to be walked. -/
structure Stands (c : Context) (p : Path) (before : List Occurrence) : Prop
    extends Agrees c p before where
  fresh : Fresh p before

theorem Stands.part (h : Stands c p before) (i : Nat) : Stands c (.part i :: p) before :=
  ⟨Agrees.part.2 h.toAgrees, h.fresh.cons _⟩

/-- After an expression beside it. -/
theorem Stands.past {i j : Nat} (h : Stands c (.part j :: p) before) (e : Expr) (hne : i ≠ j) :
    Stands c (.part j :: p) (before ++ e.occurrences (.part i :: p)) :=
  ⟨Agrees.part.2 ((Agrees.part.1 h.toAgrees).append (e.deep _).out),
    h.fresh.sibling (e.deep _).inside fun heq => hne (Segment.part.inj heq)⟩

/-- After a statement beside it, which leads to another context. -/
theorem Stands.behind {i j : Nat} (h : Stands c (.part j :: p) before) (s : Stmt) (hne : i ≠ j)
    (hc' : Agrees c' (.part i :: p) (before ++ s.occurrences (.part i :: p))) :
    Stands c' (.part j :: p) (before ++ s.occurrences (.part i :: p)) :=
  ⟨Agrees.part.2 (Agrees.part.1 hc'),
    h.fresh.sibling (s.inside _) fun heq => hne (Segment.part.inj heq)⟩

theorem Stands.judges_variable (h : Stands c p before) (reference : Nat) (name : Token) :
    ((Expr.variable reference name).resolve c).Judges before [⟨.reading, name, p⟩]
      fun _ => True := by
  have hpending := h.pending name.lexeme
  rw [Expr.resolve]
  split
  · next hname =>
    obtain ⟨hlocal, name', hmem, hname'⟩ := hpending.1 hname
    have hmisuse : Occurrence.Misuses before ⟨.reading, name, p⟩ .readInInitializer :=
      .readInInitializer rfl hlocal hmem hname'
    exact Walk.judges_reject hmisuse
  · next hname =>
    refine Walk.Judges.after ?_ (c.judges_locate reference name)
    intro cause hmisuse
    cases hmisuse with
    | readInInitializer _ hlocal hmem hname' =>
      exact hname (hpending.2 ⟨hlocal, _, hmem, hname'⟩)
    | alreadyDeclared huse | returnAtTopLevel huse | valueFromInitializer huse
    | thisOutsideClass huse => cases huse

theorem Stands.judges_this (h : Stands c p before) (reference : Nat) (keyword : Token) :
    ((Expr.this reference keyword).resolve c).Judges before [⟨.this, keyword, p⟩]
      fun _ => True := by
  rw [Expr.resolve]
  split
  · next hclass =>
    obtain ⟨f, hf, hmethod⟩ := h.inClass.1 hclass
    refine Walk.Judges.after ?_ (c.judges_locate reference keyword)
    intro cause hmisuse
    cases hmisuse with
    | thisOutsideClass _ houter =>
      rw [houter f hf] at hmethod
      cases hmethod
    | alreadyDeclared huse | readInInitializer huse | returnAtTopLevel huse
    | valueFromInitializer huse => cases huse
  · next hclass =>
    have hmisuse : Occurrence.Misuses before ⟨.this, keyword, p⟩ .thisOutsideClass := by
      refine .thisOutsideClass rfl fun f hf => ?_
      cases hmethod : f.2 with
      | false => rfl
      | true => exact absurd (h.inClass.2 ⟨f, hf, hmethod⟩) hclass
    exact Walk.judges_reject hmisuse

/-! ### Returning -/

theorem Stands.judges_return (h : Stands c p before) (keyword : Token) :
    ((Stmt.returning keyword none).resolve c).Judges before [⟨.returning false, keyword, p⟩]
      fun c' => c' = c := by
  have hbody := h.body
  rw [Stmt.resolve]
  split
  · next hnone =>
    have hmisuse : Occurrence.Misuses before ⟨.returning false, keyword, p⟩ .returnAtTopLevel :=
      .returnAtTopLevel rfl (Path.body_eq_none.1 (hbody.symm.trans hnone))
    exact Walk.judges_reject hmisuse
  · next hnone =>
    refine Walk.Judges.after ?_ (Walk.judges_pure rfl)
    intro cause hmisuse
    cases hmisuse with
    | returnAtTopLevel _ houter => exact hnone (hbody.trans (Path.body_eq_none.2 houter))
    | alreadyDeclared huse | readInInitializer huse | valueFromInitializer huse
    | thisOutsideClass huse => cases huse

theorem Stands.judges_returnValue (h : Stands c p before) (keyword : Token) {value : Expr}
    (hvalue : (value.resolve c).Judges (before ++ [⟨.returning true, keyword, p⟩]) os
      fun _ => True) :
    ((Stmt.returning keyword (some value)).resolve c).Judges before
      (⟨.returning true, keyword, p⟩ :: os) fun c' => c' = c := by
  have hbody := h.body
  rw [Stmt.resolve]
  split
  · next hnone =>
    have hmisuse : Occurrence.Misuses before ⟨.returning true, keyword, p⟩ .returnAtTopLevel :=
      .returnAtTopLevel rfl (Path.body_eq_none.1 (hbody.symm.trans hnone))
    exact fun d => .inr ⟨_, d, rfl, (meets_singleton hmisuse).append_left os⟩
  · next hnone =>
    split
    · next hinit =>
      obtain ⟨name, outer, houter, hname⟩ := Path.body_eq_initializer.1 (hbody.symm.trans hinit)
      have hmisuse :
          Occurrence.Misuses before ⟨.returning true, keyword, p⟩ .valueFromInitializer :=
        .valueFromInitializer rfl houter hname
      exact fun d => .inr ⟨_, d, rfl, (meets_singleton hmisuse).append_left os⟩
    · next hinit =>
      refine Walk.Judges.after ?_ (hvalue.andThen fun _ _ => Walk.judges_pure rfl)
      intro cause hmisuse
      cases hmisuse with
      | returnAtTopLevel _ houter => exact hnone (hbody.trans (Path.body_eq_none.2 houter))
      | valueFromInitializer _ houter hname =>
        exact hinit (hbody.trans (Path.body_eq_initializer.2 ⟨_, _, houter, hname⟩))
      | alreadyDeclared huse | readInInitializer huse | thisOutsideClass huse => cases huse

/-! ### Declaring statements -/

theorem Stands.introduced {names : List Token} (h : Stands c p before) (hp : p.awaited = [])
    (hknows : Knows (c.introduced names) p (before ++ declarationsAt names p)) :
    Agrees (c.introduced names) p (before ++ declarationsAt names p) := by
  refine ⟨hknows, fun x => ?_⟩
  have hquiet := h.pending x
  rw [hp] at hquiet ⊢
  constructor
  · intro hpending
    exact hquiet.1 (isPending_introduced names hpending)
  · rintro ⟨-, name, hmem, -⟩
    cases hmem

/-- While the initial values are walked, the names declared are marked. -/
theorem Stands.initial {names : List Token} (h : Stands c p before) (hp : p.awaited = [])
    (hknows : Knows (c.declared names) p (before ++ declarationsAt names p)) :
    Stands (c.declared names) (.initial names :: p) (before ++ declarationsAt names p) := by
  refine ⟨⟨(Knows.step rfl).2 hknows, fun x => ?_⟩, (h.fresh.declarationsAt names).cons _⟩
  have hquiet := h.pending x
  rw [hp] at hquiet
  constructor
  · intro hpending
    have hlocal : c.scopes ≠ [] := by
      intro hnil
      rw [declared_nil hnil, hquiet] at hpending
      exact hpending.1 (h.isGlobal.1 hnil)
    refine ⟨fun hnil => hlocal (h.isGlobal.2 hnil), ?_⟩
    rcases isPending_declared names hpending with hmem | hbefore
    · exact hmem
    · obtain ⟨-, name, hmem, -⟩ := hquiet.1 hbefore
      cases hmem
  · rintro ⟨hlocal, hmem⟩
    exact declared_isPending (fun hnil => hlocal (h.isGlobal.1 hnil)) (.inl hmem)

/-- Behind the statement they are not. -/
theorem Stands.defined {names : List Token} (h : Stands c p before) (hp : p.awaited = [])
    (hknows : Knows (c.declared names) p (before ++ declarationsAt names p)) (hos : Deep p os) :
    Agrees ((c.declared names).defined names) p (before ++ (declarationsAt names p ++ os)) := by
  rw [← List.append_assoc]
  refine ⟨(hknows.append hos).defined fun name hname => ?_, fun x => ?_⟩
  · refine List.mem_append_left _ (List.mem_append_right _ ?_)
    exact List.mem_map_of_mem hname
  · have hquiet := h.pending x
    rw [hp] at hquiet ⊢
    constructor
    · intro hpending
      obtain ⟨hdeclared, hnot⟩ := isPending_defined names hpending
      rcases isPending_declared names hdeclared with ⟨name, hmem, hname⟩ | hbefore
      · exact absurd hname (hnot name hmem)
      · exact hquiet.1 hbefore
    · rintro ⟨-, name, hmem, -⟩
      cases hmem

/-! ### Functions -/

/-- A function is walked in a context of its own; only the class around it matters. -/
structure Encloses (c : Context) (kind : Body) (name : Option Token) (isMethod : Bool) (p : Path)
    (before : List Occurrence) : Prop where
  kind : kind = Path.body (.function name isMethod :: p)
  inClass : c.inClass = true ↔ Path.InMethod (.function name isMethod :: p)
  fresh : Fresh p before

theorem Context.Knows.encloses (h : Knows c p before) (hf : Fresh p before) (name : Option Token) :
    Encloses c .function name false p before := by
  refine ⟨by cases name <;> rfl, h.inClass.trans ?_, hf⟩
  simp [Path.InMethod, Path.functions, Segment.function?]

theorem encloses_method (hclass : c.inClass = true) (hf : Fresh p before) (decl : FunctionDecl) :
    Encloses c decl.methodBody decl.name true p before := by
  refine ⟨?_, ?_, hf⟩
  · obtain ⟨_ | name, parameters, body, keyword⟩ := decl
    · have hlabel : "lambda" ≠ initializerName := by decide
      exact if_neg hlabel
    · rfl
  · simp [hclass, Path.InMethod, Path.functions, Segment.function?]

/-- The parameters of a function stand in a scope of their own. -/
theorem Encloses.parameters {kind : Body} {name : Option Token} {isMethod : Bool}
    (h : Encloses c kind name isMethod p before) :
    Agrees ({ c with body := kind }.enter []) (.function name isMethod :: p) before :=
  Knows.opened (c := { c with body := kind }) rfl h.kind h.inClass h.fresh

/-- And so does its body. -/
theorem Context.Knows.inner (h : Knows c p before) (hf : Fresh p before) :
    Stands (c.enter []) (.body :: p) before :=
  ⟨Knows.opened rfl h.body h.inClass hf, hf.cons _⟩

theorem Stands.block (h : Stands c p before) : Stands (c.enter []) (.block :: p) before :=
  ⟨Knows.opened rfl h.body h.inClass h.fresh, h.fresh.cons _⟩

/-! ### The whole tree -/

mutual

theorem Expr.judged (e : Expr) {c : Context} {p : Path} {before : List Occurrence}
    (h : Stands c p before) :
    (e.resolve c).Judges before (e.occurrences p) fun _ => True := by
  cases e with
  | literal value =>
    rw [Expr.resolve, Expr.occurrences]
    exact Walk.judges_pure trivial
  | group e | unary _ e _ | get e _ =>
    rw [Expr.resolve, Expr.occurrences]
    exact e.judged (h.part 0)
  | binary left _ right | logical left _ right | index left _ right | set left _ right =>
    rw [Expr.resolve, Expr.occurrences]
    exact (left.judged (h.part 0)).bind fun _ _ =>
      right.judged ((h.part 1).past left (by decide))
  | ternary condition whenTrue whenFalse =>
    rw [Expr.resolve, Expr.occurrences]
    refine (condition.judged (h.part 0)).bind fun _ _ => ?_
    refine (whenTrue.judged ((h.part 1).past condition (by decide))).bind fun _ _ => ?_
    have hfalse : Stands c (.part 2 :: p) (before ++ condition.occurrences (.part 0 :: p)) :=
      (h.part 2).past condition (by decide)
    exact whenFalse.judged (hfalse.past whenTrue (by decide))
  | «variable» reference name =>
    rw [Expr.occurrences]
    exact h.judges_variable reference name
  | assign reference name value =>
    rw [Expr.resolve, Expr.occurrences]
    exact (value.judged (h.part 0)).andThen fun _ _ => c.judges_locate reference name
  | call callee paren arguments =>
    rw [Expr.resolve, Expr.occurrences]
    exact (callee.judged (h.part 0)).bind fun _ _ =>
      judged_exprs arguments ((h.part 1).past callee (by decide))
  | array bracket elements =>
    rw [Expr.resolve, Expr.occurrences]
    exact judged_exprs elements (h.part 0)
  | this reference keyword =>
    rw [Expr.occurrences]
    exact h.judges_this reference keyword
  | lambda decl =>
    rw [Expr.resolve, Expr.occurrences]
    exact decl.judged (h.toKnows.encloses h.fresh decl.name)

theorem judged_exprs (es : List Expr) {c : Context} {p : Path} {before : List Occurrence}
    (h : Stands c p before) :
    (resolveExprs es c).Judges before (occurrencesExprs es p) fun _ => True := by
  cases es with
  | nil =>
    rw [resolveExprs, occurrencesExprs]
    exact Walk.judges_pure trivial
  | cons e es =>
    rw [resolveExprs, occurrencesExprs]
    exact (e.judged (h.part 0)).bind fun _ _ =>
      judged_exprs es ((h.part 1).past e (by decide))

theorem FunctionDecl.judged (decl : FunctionDecl) {c : Context} {kind : Body} {isMethod : Bool}
    {p : Path} {before : List Occurrence} (h : Encloses c kind decl.name isMethod p before) :
    (decl.resolve kind c).Judges before (decl.occurrences isMethod p) fun _ => True := by
  obtain ⟨name, parameters, body, keyword⟩ := decl
  rw [FunctionDecl.resolve, FunctionDecl.occurrences]
  refine (h.parameters.judges_addAll Knows.define parameters).bind ?_
  rintro c' ⟨-, hknows⟩
  have hfresh := (h.fresh.cons (.function name isMethod)).declarationsAt parameters
  exact (judged_stmts body (hknows.inner hfresh) rfl).andThen fun _ _ => Walk.judges_pure trivial

theorem Stmt.judged (s : Stmt) {c : Context} {p : Path} {before : List Occurrence}
    (h : Stands c p before) (hp : p.awaited = []) :
    (s.resolve c).Judges before (s.occurrences p)
      fun c' => Agrees c' p (before ++ s.occurrences p) := by
  cases s with
  | block body =>
    rw [Stmt.resolve, Stmt.occurrences]
    exact (judged_stmts body h.block rfl).andThen fun _ _ =>
      Walk.judges_pure (h.toAgrees.append ((inside_stmts body _).deep rfl))
  | expression value | print value =>
    rw [Stmt.resolve, Stmt.occurrences]
    exact (value.judged (h.part 0)).andThen fun _ _ =>
      Walk.judges_pure (h.toAgrees.append (value.deep _).out)
  | var bindings =>
    rw [Stmt.resolve, Stmt.occurrences]
    refine (h.judges_addAll (fun hknows _ => hknows) _).bind ?_
    rintro _ ⟨rfl, hknows⟩
    refine (judged_bindings bindings (h.initial hp hknows)).andThen fun _ _ =>
      Walk.judges_pure ?_
    have hdeep := (deep_bindings bindings (.initial (bindings.map Prod.fst) :: p)).out
    have hdefined := h.defined hp hknows hdeep
    rwa [Context.defined, List.foldl_map] at hdefined
  | function decl =>
    rw [Stmt.resolve, Stmt.occurrences]
    refine (h.judges_addAll Knows.define decl.name.toList).bind ?_
    rintro _ ⟨rfl, hknows⟩
    have hfresh := h.fresh.declarationsAt decl.name.toList
    refine (decl.judged (hknows.encloses hfresh decl.name)).andThen fun _ _ =>
      Walk.judges_pure ?_
    rw [← List.append_assoc]
    exact (h.introduced hp hknows).append ((decl.inside false p).deep rfl)
  | classDecl name methods =>
    rw [Stmt.resolve, Stmt.occurrences]
    refine (h.judges_addAll Knows.define [name]).bind ?_
    rintro _ ⟨rfl, hknows⟩
    have hfresh := (h.fresh.declarationsAt [name]).cons (.part 0)
    refine (judged_methods methods rfl hfresh).andThen fun _ _ => Walk.judges_pure ?_
    rw [← List.append_assoc]
    exact (h.introduced hp hknows).append (deep_methods methods _).out
  | conditional condition whenTrue whenFalse =>
    have hpast : ∀ j, 0 ≠ j →
        Stands c (.part j :: p) (before ++ condition.occurrences (.part 0 :: p)) :=
      fun j hj => (h.part j).past condition hj
    cases whenFalse with
    | none =>
      rw [Stmt.resolve, Stmt.occurrences]
      refine (condition.judged (h.part 0)).bind fun _ _ => ?_
      refine (whenTrue.judged (hpast 1 (by decide)) hp).mono fun c' hc' => ?_
      rw [← List.append_assoc]
      exact Agrees.part.1 hc'
    | some whenFalse =>
      rw [Stmt.resolve, Stmt.occurrences]
      refine (condition.judged (h.part 0)).bind fun _ _ => ?_
      refine (whenTrue.judged (hpast 1 (by decide)) hp).bind fun c' hc' => ?_
      have hfalse := (hpast 2 (by decide)).behind whenTrue (by decide) hc'
      refine (whenFalse.judged hfalse hp).mono fun c'' hc'' => ?_
      rw [← List.append_assoc, ← List.append_assoc]
      exact Agrees.part.1 hc''
  | loop condition body increment =>
    have hpast : ∀ j, 0 ≠ j →
        Stands c (.part j :: p) (before ++ condition.occurrences (.part 0 :: p)) :=
      fun j hj => (h.part j).past condition hj
    cases increment with
    | none =>
      rw [Stmt.resolve, Stmt.occurrences]
      refine (condition.judged (h.part 0)).bind fun _ _ => ?_
      refine (body.judged (hpast 1 (by decide)) hp).mono fun c' hc' => ?_
      rw [← List.append_assoc]
      exact Agrees.part.1 hc'
    | some increment =>
      rw [Stmt.resolve, Stmt.occurrences]
      refine (condition.judged (h.part 0)).bind fun _ _ => ?_
      refine (body.judged (hpast 1 (by decide)) hp).bind fun c' hc' => ?_
      have hincrement := (hpast 2 (by decide)).behind body (by decide) hc'
      refine (increment.judged hincrement).andThen fun _ _ => Walk.judges_pure ?_
      rw [← List.append_assoc, ← List.append_assoc]
      exact (Agrees.part.1 hc').append (increment.deep _).out
  | returning keyword value =>
    have hreturning : Deep p [⟨.returning value.isSome, keyword, p⟩] := deep_singleton nofun
    cases value with
    | none =>
      rw [Stmt.occurrences]
      refine (h.judges_return keyword).mono ?_
      rintro _ rfl
      exact h.toAgrees.append hreturning
    | some value =>
      rw [Stmt.occurrences]
      have hvalue : Stands c (.part 0 :: p) (before ++ [⟨.returning true, keyword, p⟩]) :=
        ⟨Agrees.part.2 (h.toAgrees.append hreturning), (h.fresh.singleton _ _).cons _⟩
      refine (h.judges_returnValue keyword (value.judged hvalue)).mono ?_
      rintro _ rfl
      exact h.toAgrees.append (hreturning.append (value.deep _).out)
  | breaking | continuing =>
    rw [Stmt.resolve, Stmt.occurrences]
    refine Walk.judges_pure ?_
    rw [List.append_nil]
    exact h.toAgrees

theorem judged_stmts (ss : List Stmt) {c : Context} {p : Path} {before : List Occurrence}
    (h : Stands c p before) (hp : p.awaited = []) :
    (resolveStmts ss c).Judges before (occurrencesStmts ss p)
      fun c' => Agrees c' p (before ++ occurrencesStmts ss p) := by
  cases ss with
  | nil =>
    rw [resolveStmts, occurrencesStmts]
    refine Walk.judges_pure ?_
    rw [List.append_nil]
    exact h.toAgrees
  | cons s ss =>
    rw [resolveStmts, occurrencesStmts]
    refine (s.judged (h.part 0) hp).bind fun c' hc' => ?_
    have hrest := (h.part 1).behind s (by decide) hc'
    refine (judged_stmts ss hrest hp).mono fun c'' hc'' => ?_
    rw [← List.append_assoc]
    exact Agrees.part.1 hc''

theorem judged_bindings (bs : List (Token × Option Expr)) {c : Context} {p : Path}
    {before : List Occurrence} (h : Stands c p before) :
    (resolveBindings bs c).Judges before (occurrencesBindings bs p) fun _ => True := by
  rcases bs with _ | ⟨⟨name, _ | value⟩, bs⟩
  · rw [resolveBindings, occurrencesBindings]
    exact Walk.judges_pure trivial
  · rw [resolveBindings, occurrencesBindings]
    exact judged_bindings bs (h.part 1)
  · rw [resolveBindings, occurrencesBindings]
    exact (value.judged (h.part 0)).bind fun _ _ =>
      judged_bindings bs ((h.part 1).past value (by decide))

theorem judged_methods (fs : List FunctionDecl) {c : Context} {p : Path}
    {before : List Occurrence} (hclass : c.inClass = true) (hf : Fresh p before) :
    (resolveMethods fs c).Judges before (occurrencesMethods fs p) fun _ => True := by
  cases fs with
  | nil =>
    rw [resolveMethods, occurrencesMethods]
    exact Walk.judges_pure trivial
  | cons f fs =>
    rw [resolveMethods, occurrencesMethods]
    have hfresh := (hf.cons (.part 1)).sibling (f.inside true (.part 0 :: p)).out nofun
    exact (f.judged (encloses_method hclass (hf.cons (.part 0)) f)).bind fun _ _ =>
      judged_methods fs hclass hfresh

end

theorem stands_top : Stands .top [] [] where
  body := rfl
  inClass := by simp [Context.top, Path.InMethod, Path.functions]
  isGlobal := by simp [Context.top, Path.scope]
  declared := by simp [Context.top, Context.declares, Path.scope]
  pending := by simp [Context.top, Context.isPending, Path.scope]
  fresh := nofun

theorem resolveProgram_judges (program : List Stmt) :
    (resolveProgram program).Judges [] (occurrencesStmts program []) fun _ => True := by
  rw [resolveProgram]
  exact (judged_stmts program stands_top rfl).andThen fun _ _ => Walk.judges_pure trivial

/-- The walk accepts a tree if no occurrence in it is a misuse, and these trees only. It rejects a tree
for the first misuse in it, and for no other one. -/
theorem resolveProgram_finds_first_misuse (program : List Stmt) (d : Distances) :
    ((∃ d', resolveProgram program d = .passed () d') ↔
      Clean [] (occurrencesStmts program [])) ∧
    ∀ fault, (∃ d', resolveProgram program d = .rejected fault d') ↔
      Meets [] (occurrencesStmts program []) fault := by
  rcases resolveProgram_judges program d with ⟨⟨⟩, d', hd, hclean, -⟩ | ⟨fault, d', hd, hmeets⟩
  · rw [hd]
    refine ⟨⟨fun _ => hclean, fun _ => ⟨d', rfl⟩⟩, fun fault => ⟨?_, fun hmeets => ?_⟩⟩
    · rintro ⟨d'', h⟩
      cases h
    · exact absurd hclean hmeets.not_clean
  · rw [hd]
    refine ⟨⟨?_, fun hclean => absurd hclean hmeets.not_clean⟩, fun fault' => ⟨?_, fun h => ?_⟩⟩
    · rintro ⟨d'', h⟩
      cases h
    · rintro ⟨d'', h⟩
      cases h
      exact hmeets
    · obtain rfl := hmeets.unique h
      exact ⟨d', rfl⟩

end TreeWalk
