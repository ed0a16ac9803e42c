import TreeWalk.Tree.Scoping

/-!
# Where names occur

A tree is flattened to the places where it declares a name, reads a variable, returns or says `this`,
in the order in which the walk over scopes comes to them. Each `Occurrence` has the path to it from
the root of the tree, so what surrounds it is known without a walk: its scope (`Path.scope`), the
functions around it (`Path.functions`), and the names whose initial values it is part of
(`Path.awaited`). `Occurrence.Misuses` says when an occurrence is a misuse.

Paths are addresses: two parts of a tree, neither inside of the other, have no path in common.
-/

namespace TreeWalk

/-! ### Paths -/

/-- One step from a part of a tree to a part inside of it. -/
inductive Segment where
  /-- The parts of a node are numbered; those of a list are its head and the rest of it. -/
  | part (number : Nat)
  /-- The initial values in a statement that declares `names`. -/
  | initial (names : List Token)
  /-- The scope of a block. -/
  | block
  /-- The scope of the parameters of a function. -/
  | function (name : Option Token) (isMethod : Bool)
  /-- The scope of the body of a function. -/
  | body

namespace Segment

def opensScope : Segment → Bool
  | .part _ | .initial _ => false
  | .block | .function _ _ | .body => true

/-- The name of a function and whether it is a method. -/
def function? : Segment → Option (Option Token × Bool)
  | .function name isMethod => some (name, isMethod)
  | _ => none

end Segment

/-- The steps from the root, the last one first. -/
abbrev Path := List Segment

namespace Path

/-- The path to the innermost scope; empty for the global one. -/
def scope : Path → Path
  | [] => []
  | s :: outer => if s.opensScope then s :: outer else scope outer

/-- The functions around a place, innermost first. -/
def functions (p : Path) : List (Option Token × Bool) :=
  p.filterMap Segment.function?

/-- The names in whose initial values a place lies, if no scope was opened in between. -/
def awaited : Path → List Token
  | [] => []
  | .initial names :: _ => names
  | s :: outer => if s.opensScope then [] else awaited outer

end Path

/-! ### Occurrences -/

/-- How a token is used. -/
inductive Use where
  | declaration
  | reading
  | returning (withValue : Bool)
  | this

structure Occurrence where
  use : Use
  token : Token
  path : Path

def declarationsAt (names : List Token) (p : Path) : List Occurrence :=
  names.map fun name => ⟨.declaration, name, p⟩

mutual

def Expr.occurrences : Expr → Path → List Occurrence
  | .literal _, _ => []
  | .group inner, p => inner.occurrences (.part 0 :: p)
  | .unary _ operand _, p => operand.occurrences (.part 0 :: p)
  | .binary left _ right, p => left.occurrences (.part 0 :: p) ++ right.occurrences (.part 1 :: p)
  | .logical left _ right, p => left.occurrences (.part 0 :: p) ++ right.occurrences (.part 1 :: p)
  | .ternary condition whenTrue whenFalse, p =>
    condition.occurrences (.part 0 :: p) ++
      (whenTrue.occurrences (.part 1 :: p) ++ whenFalse.occurrences (.part 2 :: p))
  | .variable _ name, p => [⟨.reading, name, p⟩]
  | .assign _ _ value, p => value.occurrences (.part 0 :: p)
  | .call callee _ arguments, p =>
    callee.occurrences (.part 0 :: p) ++ occurrencesExprs arguments (.part 1 :: p)
  | .array _ elements, p => occurrencesExprs elements (.part 0 :: p)
  | .index collection _ position, p =>
    collection.occurrences (.part 0 :: p) ++ position.occurrences (.part 1 :: p)
  | .get object _, p => object.occurrences (.part 0 :: p)
  | .set object _ value, p => object.occurrences (.part 0 :: p) ++ value.occurrences (.part 1 :: p)
  | .this _ keyword, p => [⟨.this, keyword, p⟩]
  | .lambda function, p => function.occurrences false p

def occurrencesExprs : List Expr → Path → List Occurrence
  | [], _ => []
  | e :: rest, p => e.occurrences (.part 0 :: p) ++ occurrencesExprs rest (.part 1 :: p)

def FunctionDecl.occurrences : FunctionDecl → (isMethod : Bool) → Path → List Occurrence
  | ⟨name, parameters, body, _⟩, isMethod, p =>
    declarationsAt parameters (.function name isMethod :: p) ++
      occurrencesStmts body (.body :: .function name isMethod :: p)

def Stmt.occurrences : Stmt → Path → List Occurrence
  | .block body, p => occurrencesStmts body (.block :: p)
  | .expression value, p => value.occurrences (.part 0 :: p)
  | .print value, p => value.occurrences (.part 0 :: p)
  | .var bindings, p =>
    declarationsAt (bindings.map Prod.fst) p ++
      occurrencesBindings bindings (.initial (bindings.map Prod.fst) :: p)
  | .function decl, p => declarationsAt decl.name.toList p ++ decl.occurrences false p
  | .classDecl name methods, p =>
    declarationsAt [name] p ++ occurrencesMethods methods (.part 0 :: p)
  | .conditional condition whenTrue none, p =>
    condition.occurrences (.part 0 :: p) ++ whenTrue.occurrences (.part 1 :: p)
  | .conditional condition whenTrue (some whenFalse), p =>
    condition.occurrences (.part 0 :: p) ++
      (whenTrue.occurrences (.part 1 :: p) ++ whenFalse.occurrences (.part 2 :: p))
  | .loop condition body none, p =>
    condition.occurrences (.part 0 :: p) ++ body.occurrences (.part 1 :: p)
  | .loop condition body (some increment), p =>
    condition.occurrences (.part 0 :: p) ++
      (body.occurrences (.part 1 :: p) ++ increment.occurrences (.part 2 :: p))
  | .returning keyword none, p => [⟨.returning false, keyword, p⟩]
  | .returning keyword (some value), p =>
    ⟨.returning true, keyword, p⟩ :: value.occurrences (.part 0 :: p)
  | .breaking _, _ => []
  | .continuing _, _ => []

def occurrencesStmts : List Stmt → Path → List Occurrence
  | [], _ => []
  | s :: rest, p => s.occurrences (.part 0 :: p) ++ occurrencesStmts rest (.part 1 :: p)

def occurrencesBindings : List (Token × Option Expr) → Path → List Occurrence
  | [], _ => []
  | (_, none) :: rest, p => occurrencesBindings rest (.part 1 :: p)
  | (_, some value) :: rest, p =>
    value.occurrences (.part 0 :: p) ++ occurrencesBindings rest (.part 1 :: p)

def occurrencesMethods : List FunctionDecl → Path → List Occurrence
  | [], _ => []
  | f :: rest, p => f.occurrences true (.part 0 :: p) ++ occurrencesMethods rest (.part 1 :: p)

end

/-! ### Misuses -/

/-- The occurrence is a misuse if `before` are the occurrences before it. -/
inductive Occurrence.Misuses (before : List Occurrence) (o : Occurrence) : ScopeCause → Prop
  /-- The scope, a local one, has the name already. -/
  | alreadyDeclared {o'} (huse : o.use = .declaration) (hlocal : o.path.scope ≠ [])
      (hmem : o' ∈ before) (huse' : o'.use = .declaration)
      (hscope : o'.path.scope = o.path.scope) (hname : o'.token.lexeme = o.token.lexeme) :
      o.Misuses before .alreadyDeclared
  /-- The variable is one of those in whose initial values it is read, and these are local. -/
  | readInInitializer {name} (huse : o.use = .reading) (hlocal : o.path.scope ≠ [])
      (hmem : name ∈ o.path.awaited) (hname : name.lexeme = o.token.lexeme) :
      o.Misuses before .readInInitializer
  /-- There is no function to return from. -/
  | returnAtTopLevel {withValue} (huse : o.use = .returning withValue)
      (houter : o.path.functions = []) : o.Misuses before .returnAtTopLevel
  /-- The nearest function is a method with the name of an initializer. -/
  | valueFromInitializer {name outer} (huse : o.use = .returning true)
      (houter : o.path.functions = (some name, true) :: outer)
      (hname : name.lexeme = initializerName) : o.Misuses before .valueFromInitializer
  /-- None of the functions around it is a method. -/
  | thisOutsideClass (huse : o.use = .this)
      (houter : ∀ f ∈ o.path.functions, f.2 = false) : o.Misuses before .thisOutsideClass

/-- None of the occurrences is a misuse. -/
def Clean (before os : List Occurrence) : Prop :=
  ∀ earlier o later, os = earlier ++ o :: later → ∀ cause, ¬o.Misuses (before ++ earlier) cause

/-- The fault is the first misuse among the occurrences, at the token that is misused. -/
def Meets (before os : List Occurrence) (fault : ScopeFault) : Prop :=
  ∃ earlier o later, os = earlier ++ o :: later ∧ Clean before earlier ∧
    o.Misuses (before ++ earlier) fault.cause ∧ fault.place = o.token.place

variable {before os os' earlier : List Occurrence} {o : Occurrence} {fault fault' : ScopeFault}

/-- An occurrence is misused in one way at most. -/
theorem Occurrence.Misuses.unique {cause cause' : ScopeCause} (h : o.Misuses before cause)
    (h' : o.Misuses before cause') : cause = cause' := by
  cases h with
  | alreadyDeclared huse | readInInitializer huse | thisOutsideClass huse =>
    cases h' with
    | alreadyDeclared huse' | readInInitializer huse' | returnAtTopLevel huse'
    | valueFromInitializer huse' | thisOutsideClass huse' => simp_all
  | returnAtTopLevel huse houter | valueFromInitializer huse houter =>
    cases h' with
    | alreadyDeclared huse' | readInInitializer huse' | thisOutsideClass huse' => simp_all
    | returnAtTopLevel huse' houter' | valueFromInitializer huse' houter' => simp_all

theorem clean_nil : Clean before [] := by
  intro earlier o later h
  simp at h

theorem Clean.append (h : Clean before os) (h' : Clean (before ++ os) os') :
    Clean before (os ++ os') := by
  intro earlier o later hsplit cause
  rcases List.append_eq_append_iff.1 hsplit with ⟨mid, rfl, hos'⟩ | ⟨mid, hos, hrest⟩
  · rw [← List.append_assoc]
    exact h' mid o later hos' cause
  · rcases mid with _ | ⟨o', mid⟩
    · rw [List.append_nil] at hos
      subst hos
      have hclean := h' [] o later hrest.symm cause
      rwa [List.append_nil] at hclean
    · obtain ⟨rfl, rfl⟩ := List.cons.inj hrest
      exact h earlier o mid hos cause

theorem clean_singleton (h : ∀ cause, ¬o.Misuses before cause) : Clean before [o] := by
  intro earlier o' later hsplit cause
  rcases earlier with _ | ⟨o'', earlier⟩
  · obtain ⟨rfl, -⟩ := List.cons.inj hsplit
    rw [List.append_nil]
    exact h cause
  · have hnil := (List.cons.inj hsplit).2
    simp at hnil

theorem meets_singleton {cause : ScopeCause} (h : o.Misuses before cause) :
    Meets before [o] ⟨cause, o.token.place⟩ :=
  ⟨[], o, [], rfl, clean_nil, by rwa [List.append_nil], rfl⟩

theorem Meets.append_left (h : Meets before os fault) (os' : List Occurrence) :
    Meets before (os ++ os') fault := by
  obtain ⟨earlier, o, later, rfl, hrest⟩ := h
  exact ⟨earlier, o, later ++ os', by simp, hrest⟩

theorem Meets.append_right (hos : Clean before os) (h : Meets (before ++ os) os' fault) :
    Meets before (os ++ os') fault := by
  obtain ⟨earlier, o, later, rfl, hclean, hmisuse, hplace⟩ := h
  refine ⟨os ++ earlier, o, later, by simp, hos.append hclean, ?_, hplace⟩
  rwa [← List.append_assoc]

theorem Meets.not_clean (h : Meets before os fault) : ¬Clean before os := by
  obtain ⟨earlier, o, later, hos, -, hmisuse, -⟩ := h
  exact fun hclean => hclean earlier o later hos _ hmisuse

/-- There is one first misuse. -/
theorem Meets.unique (h : Meets before os fault) (h' : Meets before os fault') :
    fault = fault' := by
  obtain ⟨earlier, o, later, rfl, hclean, hmisuse, hplace⟩ := h
  obtain ⟨earlier', o', later', hos, hclean', hmisuse', hplace'⟩ := h'
  have hsame : earlier = earlier' ∧ o = o' := by
    rcases List.append_eq_append_iff.1 hos with ⟨mid, rfl, hmid⟩ | ⟨mid, rfl, hmid⟩
    · rcases mid with _ | ⟨o'', mid⟩
      · exact ⟨(List.append_nil _).symm, (List.cons.inj hmid).1⟩
      · obtain ⟨rfl, -⟩ := List.cons.inj hmid
        exact absurd hmisuse (hclean' earlier o mid rfl _)
    · rcases mid with _ | ⟨o'', mid⟩
      · exact ⟨List.append_nil _, (List.cons.inj hmid).1.symm⟩
      · obtain ⟨rfl, -⟩ := List.cons.inj hmid
        exact absurd hmisuse' (hclean earlier' o' mid rfl _)
  obtain ⟨rfl, rfl⟩ := hsame
  obtain ⟨cause, place⟩ := fault
  obtain ⟨cause', place'⟩ := fault'
  obtain rfl : cause = cause' := hmisuse.unique hmisuse'
  obtain rfl : place = place' := hplace.trans hplace'.symm
  rfl

/-! ### Scopes of parts -/

variable {p q : Path} {s t : Segment}

theorem Path.scope_suffix (p : Path) : p.scope <:+ p := by
  induction p with
  | nil => exact List.suffix_refl _
  | cons s outer ih =>
    rw [Path.scope]
    split
    · exact List.suffix_refl _
    · exact ih.trans (List.suffix_cons s outer)

/-- A place inside of a scope is in that scope or in one inside of it. -/
theorem Path.suffix_scope (hs : s.opensScope) (h : s :: p <:+ q) : s :: p <:+ q.scope := by
  induction q with
  | nil => exact absurd (List.suffix_nil.1 h) (List.cons_ne_nil s p)
  | cons t outer ih =>
    rw [Path.scope]
    split
    · exact h
    · next ht =>
      rcases List.suffix_cons_iff.1 h with heq | h'
      · obtain ⟨rfl, rfl⟩ := List.cons.inj heq
        exact absurd hs ht
      · exact ih h'

/-! ### Where the occurrences of a part lie -/

/-- The occurrences lie in the part at `p`. -/
def Inside (p : Path) (os : List Occurrence) : Prop :=
  ∀ o ∈ os, p <:+ o.path

theorem inside_nil : Inside p [] := List.forall_mem_nil _

theorem inside_declarationsAt (names : List Token) : Inside p (declarationsAt names p) := by
  intro o ho
  obtain ⟨name, -, rfl⟩ := List.mem_map.1 ho
  exact List.suffix_refl p

theorem Inside.append (h : Inside p os) (h' : Inside p os') : Inside p (os ++ os') :=
  List.forall_mem_append.2 ⟨h, h'⟩

theorem Inside.out (h : Inside (s :: p) os) : Inside p os :=
  fun o ho => (List.suffix_cons s p).trans (h o ho)

/-- The occurrences lie in the part at `p`, and what they declare is in scopes that open inside of
it. -/
structure Deep (p : Path) (os : List Occurrence) : Prop where
  inside : Inside p os
  declares : ∀ o ∈ os, o.use = .declaration → p.length < o.path.scope.length

theorem deep_nil : Deep p [] :=
  ⟨inside_nil, List.forall_mem_nil _⟩

theorem deep_singleton {use : Use} {t : Token} (h : use ≠ .declaration) : Deep p [⟨use, t, p⟩] :=
  ⟨List.forall_mem_singleton.2 (List.suffix_refl p),
    List.forall_mem_singleton.2 fun huse => absurd huse h⟩

theorem Deep.append (h : Deep p os) (h' : Deep p os') : Deep p (os ++ os') :=
  ⟨h.inside.append h'.inside, List.forall_mem_append.2 ⟨h.declares, h'.declares⟩⟩

theorem Deep.out (h : Deep (s :: p) os) : Deep p os :=
  ⟨h.inside.out, fun o ho huse => Nat.lt_of_succ_lt (h.declares o ho huse)⟩

/-- Whatever is declared in a scope. -/
theorem Inside.deep (h : Inside (s :: p) os) (hs : s.opensScope) : Deep p os :=
  ⟨h.out, fun o ho _ => (Path.suffix_scope hs (h o ho)).length_le⟩

mutual

/-- Only functions declare anything in an expression. -/
theorem Expr.deep (e : Expr) (p : Path) : Deep p (e.occurrences p) := by
  cases e with
  | literal value =>
    rw [Expr.occurrences]
    exact deep_nil
  | group e | unary _ e _ | assign _ _ e | get e _ =>
    rw [Expr.occurrences]
    exact (e.deep _).out
  | binary left _ right | logical left _ right | index left _ right | set left _ right =>
    rw [Expr.occurrences]
    exact (left.deep _).out.append (right.deep _).out
  | ternary condition whenTrue whenFalse =>
    rw [Expr.occurrences]
    exact (condition.deep _).out.append ((whenTrue.deep _).out.append (whenFalse.deep _).out)
  | «variable» reference name =>
    rw [Expr.occurrences]
    exact deep_singleton nofun
  | call callee paren arguments =>
    rw [Expr.occurrences]
    exact (callee.deep _).out.append (deep_exprs arguments _).out
  | array bracket elements =>
    rw [Expr.occurrences]
    exact (deep_exprs elements _).out
  | this reference keyword =>
    rw [Expr.occurrences]
    exact deep_singleton nofun
  | lambda decl =>
    rw [Expr.occurrences]
    exact (decl.inside false p).deep rfl

theorem deep_exprs (es : List Expr) (p : Path) : Deep p (occurrencesExprs es p) := by
  cases es with
  | nil =>
    rw [occurrencesExprs]
    exact deep_nil
  | cons e es =>
    rw [occurrencesExprs]
    exact (e.deep _).out.append (deep_exprs es _).out

/-- All occurrences in a function lie in the scope of its parameters. -/
theorem FunctionDecl.inside (decl : FunctionDecl) (isMethod : Bool) (p : Path) :
    Inside (.function decl.name isMethod :: p) (decl.occurrences isMethod p) := by
  obtain ⟨name, parameters, body, keyword⟩ := decl
  rw [FunctionDecl.occurrences]
  exact (inside_declarationsAt parameters).append (inside_stmts body _).out

/-- A statement may declare names in the scope that it stands in. -/
theorem Stmt.inside (s : Stmt) (p : Path) : Inside p (s.occurrences p) := by
  cases s with
  | block body =>
    rw [Stmt.occurrences]
    exact (inside_stmts body _).out
  | expression value | print value =>
    rw [Stmt.occurrences]
    exact (value.deep _).inside.out
  | var bindings =>
    rw [Stmt.occurrences]
    exact (inside_declarationsAt _).append (deep_bindings bindings _).inside.out
  | function decl =>
    rw [Stmt.occurrences]
    exact (inside_declarationsAt _).append (decl.inside false p).out
  | classDecl name methods =>
    rw [Stmt.occurrences]
    exact (inside_declarationsAt _).append (deep_methods methods _).inside.out
  | conditional condition whenTrue whenFalse =>
    cases whenFalse with
    | none =>
      rw [Stmt.occurrences]
      exact (condition.deep _).inside.out.append (whenTrue.inside _).out
    | some whenFalse =>
      rw [Stmt.occurrences]
      exact (condition.deep _).inside.out.append
        ((whenTrue.inside _).out.append (whenFalse.inside _).out)
  | loop condition body increment =>
    cases increment with
    | none =>
      rw [Stmt.occurrences]
      exact (condition.deep _).inside.out.append (body.inside _).out
    | some increment =>
      rw [Stmt.occurrences]
      exact (condition.deep _).inside.out.append
        ((body.inside _).out.append (increment.deep _).inside.out)
  | returning keyword value =>
    have hreturning : Deep p [⟨.returning value.isSome, keyword, p⟩] := deep_singleton nofun
    cases value with
    | none =>
      rw [Stmt.occurrences]
      exact hreturning.inside
    | some value =>
      rw [Stmt.occurrences]
      exact (hreturning.append (value.deep _).out).inside
  | breaking | continuing =>
    rw [Stmt.occurrences]
    exact inside_nil

theorem inside_stmts (ss : List Stmt) (p : Path) : Inside p (occurrencesStmts ss p) := by
  cases ss with
  | nil =>
    rw [occurrencesStmts]
    exact inside_nil
  | cons s ss =>
    rw [occurrencesStmts]
    exact (s.inside _).out.append (inside_stmts ss _).out

theorem deep_bindings (bs : List (Token × Option Expr)) (p : Path) :
    Deep p (occurrencesBindings bs p) := by
  rcases bs with _ | ⟨⟨name, _ | value⟩, bs⟩
  · rw [occurrencesBindings]
    exact deep_nil
  · rw [occurrencesBindings]
    exact (deep_bindings bs _).out
  · rw [occurrencesBindings]
    exact (value.deep _).out.append (deep_bindings bs _).out

theorem deep_methods (fs : List FunctionDecl) (p : Path) : Deep p (occurrencesMethods fs p) := by
  cases fs with
  | nil =>
    rw [occurrencesMethods]
    exact deep_nil
  | cons f fs =>
    rw [occurrencesMethods]
    exact ((f.inside true _).deep rfl).out.append (deep_methods fs _).out

end

end TreeWalk
