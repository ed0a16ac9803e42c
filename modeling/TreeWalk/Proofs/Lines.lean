import TreeWalk.Proofs.Wording
import TreeWalk.Proofs.Correspondence
import TreeWalk.Proofs.FaultOrder
import TreeWalk.Proofs.Misuses

/-!
# Diagnostics stand on lines of the source

Every token of a source is on one of its lines, and every diagnostic is about a token: about one of the
scan, about one that the parser stopped at, about an occurrence of a name in the tree, or, while the
program runs, about a token that the machine got from the tree. No statement is asked for its line, which
may be 0, because no signal leaves a program that was accepted.
-/

namespace TreeWalk

/-- The lines that a diagnostic names. -/
def Diagnostic.lines : Diagnostic → List Nat
  | .lexical f => [f.line]
  | .syntactic r => r.toList.map fun f => f.place.line
  | .scoping f => [f.place.line]
  | .runtime (.runtime _ line _) => [line]
  | .runtime (.conversion _ _) => []

/-- Only a failed conversion names no line. -/
theorem Diagnostic.lines_eq_nil {d : Diagnostic} (h : d.lines = []) :
    ∃ shown target, d = .runtime (.conversion shown target) := by
  cases d with
  | lexical | scoping => cases h
  | syntactic r => cases List.map_eq_nil_iff.1 h
  | runtime f =>
    cases f with
    | runtime => cases h
    | conversion shown target => exact ⟨shown, target, rfl⟩

/-! ### Lines of a source -/

namespace Lexer

/-- The source has the line; the first one is 1. -/
def HasLine (source : List UInt8) (line : Nat) : Prop :=
  1 ≤ line ∧ line ≤ 1 + newlines source

variable {source : List UInt8}

theorem hasLine_last : HasLine source (1 + newlines source) :=
  ⟨Nat.le_add_right 1 _, Nat.le_refl _⟩

/-- A part of the source ends on a line of it. -/
theorem Cuts.hasLine {spans : List Span} {span : Span} {line : Nat} (h : Cuts [] source spans)
    (hspan : span ∈ spans) (hline : span.item.line? = some line) : HasLine source line := by
  obtain ⟨earlier, later, rfl⟩ := List.append_of_mem hspan
  obtain ⟨rest, htakes⟩ := h.takes
  have hsource : source = (earlier.map Span.bytes).flatten ++ span.bytes ++
      (later.map Span.bytes).flatten := by
    rw [← h.flatten, List.map_append, List.map_cons, List.flatten_append, List.flatten_cons,
      List.append_assoc]
  rw [htakes.line hline, hsource, List.nil_append]
  refine ⟨Nat.le_add_right 1 _, ?_⟩
  rw [newlines_append _ (later.map Span.bytes).flatten]
  omega

theorem hasLine_of_token {ts : List Token} (h : tokens source = .ok ts) :
    ∀ t ∈ ts, HasLine source t.line := by
  obtain ⟨spans, hcuts, -, rfl⟩ := tokens_eq_ok.1 h
  intro t ht
  rcases List.mem_append.1 ht with ht | ht
  · obtain ⟨span, hspan, hitem⟩ := List.mem_filterMap.1 ht
    refine hcuts.hasLine hspan ?_
    rw [Span.token?_eq_some.1 hitem]
    rfl
  · rw [List.mem_singleton.1 ht]
    exact hasLine_last

theorem mem_of_firstFault {items : List (Except LexFault Token)} {f : LexFault}
    (h : firstFault items = .error f) : .error f ∈ items := by
  induction items with
  | nil => cases h
  | cons item items ih =>
    cases item with
    | error f' =>
      cases h
      exact List.mem_cons_self
    | ok t =>
      rw [firstFault] at h
      cases hrest : firstFault items with
      | error f' =>
        rw [hrest] at h
        cases h
        exact List.mem_cons_of_mem _ (ih hrest)
      | ok ts =>
        rw [hrest] at h
        cases h

theorem hasLine_of_fault {f : LexFault} (h : tokens source = .error f) : HasLine source f.line := by
  obtain ⟨spans, hcuts, -⟩ := @cuts_scanFrom _ [] source (Nat.le_refl _)
  obtain ⟨span, hspan, hitem⟩ := hcuts.error_mem_scan.1 (mem_of_firstFault h)
  refine hcuts.hasLine hspan ?_
  rw [hitem]
  rfl

end Lexer

/-! ### Tokens of occurrences -/

section

variable {P : Token → Prop}

theorem forall_declarationsAt {names : List Token} (h : ∀ x ∈ names, x.Names P) (p : Path) :
    ∀ o ∈ declarationsAt names p, P o.token := by
  intro o ho
  obtain ⟨name, hname, rfl⟩ := List.mem_map.1 ho
  exact (h name hname).1

theorem forall_occurrence {o : Occurrence} (h : P o.token) : ∀ o' ∈ [o], P o'.token :=
  List.forall_mem_singleton.2 h

mutual

theorem Expr.tokens_occurrences (e : Expr) (p : Path) (h : e.Spelled P) :
    ∀ o ∈ e.occurrences p, P o.token := by
  cases e with
  | literal value => exact List.forall_mem_nil _
  | group e => exact e.tokens_occurrences _ h
  | unary _ e _ | get e _ | assign _ _ e => exact e.tokens_occurrences _ h.2
  | binary left _ right | logical left _ right | index left _ right | set left _ right =>
    obtain ⟨-, hleft, hright⟩ := h
    rw [Expr.occurrences]
    exact List.forall_mem_append.2
      ⟨left.tokens_occurrences _ hleft, right.tokens_occurrences _ hright⟩
  | ternary condition whenTrue whenFalse =>
    obtain ⟨hcondition, htrue, hfalse⟩ := h
    rw [Expr.occurrences]
    exact List.forall_mem_append.2 ⟨condition.tokens_occurrences _ hcondition,
      List.forall_mem_append.2
        ⟨whenTrue.tokens_occurrences _ htrue, whenFalse.tokens_occurrences _ hfalse⟩⟩
  | «variable» reference name | this reference name =>
    rw [Expr.occurrences]
    exact forall_occurrence h.1
  | call callee paren arguments =>
    obtain ⟨-, hcallee, harguments⟩ := h
    rw [Expr.occurrences]
    exact List.forall_mem_append.2
      ⟨callee.tokens_occurrences _ hcallee, tokens_occurrencesExprs arguments _ harguments⟩
  | array bracket elements => exact tokens_occurrencesExprs elements _ h.2
  | lambda decl => exact decl.tokens_occurrences false p h

theorem tokens_occurrencesExprs (es : List Expr) (p : Path) (h : exprsSpelled P es) :
    ∀ o ∈ occurrencesExprs es p, P o.token := by
  cases es with
  | nil => exact List.forall_mem_nil _
  | cons e es =>
    rw [occurrencesExprs]
    exact List.forall_mem_append.2
      ⟨e.tokens_occurrences _ h.1, tokens_occurrencesExprs es _ h.2⟩

theorem FunctionDecl.tokens_occurrences (decl : FunctionDecl) (isMethod : Bool) (p : Path)
    (h : decl.Spelled P) : ∀ o ∈ decl.occurrences isMethod p, P o.token := by
  obtain ⟨name, parameters, body, keyword⟩ := decl
  obtain ⟨-, hparameters, hbody, -⟩ := h
  rw [FunctionDecl.occurrences]
  exact List.forall_mem_append.2
    ⟨forall_declarationsAt hparameters _, tokens_occurrencesStmts body _ hbody⟩

theorem Stmt.tokens_occurrences (s : Stmt) (p : Path) (h : s.Spelled P) :
    ∀ o ∈ s.occurrences p, P o.token := by
  cases s with
  | block body => exact tokens_occurrencesStmts body _ h
  | expression value | print value => exact value.tokens_occurrences _ h
  | var bindings =>
    have hbindings : bindingsSpelled P bindings := h
    rw [Stmt.occurrences]
    refine List.forall_mem_append.2
      ⟨forall_declarationsAt ?_ _, tokens_occurrencesBindings bindings _ hbindings⟩
    exact List.forall_mem_map.2 fun b hb => (bindingsSpelled_iff.1 hbindings b hb).1
  | function decl =>
    have hdecl : decl.Spelled P := h
    rw [Stmt.occurrences]
    refine List.forall_mem_append.2
      ⟨forall_declarationsAt ?_ _, decl.tokens_occurrences false _ hdecl⟩
    exact fun name hname => (FunctionDecl.spelled_iff.1 hdecl).1 name (Option.mem_toList.1 hname)
  | classDecl name methods =>
    obtain ⟨hname, hmethods⟩ := h
    rw [Stmt.occurrences]
    exact List.forall_mem_append.2 ⟨forall_declarationsAt (List.forall_mem_singleton.2 hname) _,
      tokens_occurrencesMethods methods _ hmethods⟩
  | conditional condition whenTrue whenFalse =>
    cases whenFalse with
    | none =>
      obtain ⟨hcondition, htrue⟩ := h
      rw [Stmt.occurrences]
      exact List.forall_mem_append.2
        ⟨condition.tokens_occurrences _ hcondition, whenTrue.tokens_occurrences _ htrue⟩
    | some whenFalse =>
      obtain ⟨hcondition, htrue, hfalse⟩ := h
      rw [Stmt.occurrences]
      exact List.forall_mem_append.2 ⟨condition.tokens_occurrences _ hcondition,
        List.forall_mem_append.2
          ⟨whenTrue.tokens_occurrences _ htrue, whenFalse.tokens_occurrences _ hfalse⟩⟩
  | loop condition body increment =>
    cases increment with
    | none =>
      obtain ⟨hcondition, hbody⟩ := h
      rw [Stmt.occurrences]
      exact List.forall_mem_append.2
        ⟨condition.tokens_occurrences _ hcondition, body.tokens_occurrences _ hbody⟩
    | some increment =>
      obtain ⟨hcondition, hbody, hincrement⟩ := h
      rw [Stmt.occurrences]
      exact List.forall_mem_append.2 ⟨condition.tokens_occurrences _ hcondition,
        List.forall_mem_append.2
          ⟨body.tokens_occurrences _ hbody, increment.tokens_occurrences _ hincrement⟩⟩
  | returning keyword value =>
    cases value with
    | none =>
      rw [Stmt.occurrences]
      exact forall_occurrence h
    | some value =>
      rw [Stmt.occurrences]
      exact List.forall_mem_cons.2 ⟨h.1, value.tokens_occurrences _ h.2⟩
  | breaking | continuing => exact List.forall_mem_nil _

theorem tokens_occurrencesStmts (ss : List Stmt) (p : Path) (h : stmtsSpelled P ss) :
    ∀ o ∈ occurrencesStmts ss p, P o.token := by
  cases ss with
  | nil => exact List.forall_mem_nil _
  | cons s ss =>
    rw [occurrencesStmts]
    exact List.forall_mem_append.2
      ⟨s.tokens_occurrences _ h.1, tokens_occurrencesStmts ss _ h.2⟩

theorem tokens_occurrencesBindings (bs : List (Token × Option Expr)) (p : Path)
    (h : bindingsSpelled P bs) : ∀ o ∈ occurrencesBindings bs p, P o.token := by
  rcases bs with _ | ⟨⟨name, _ | value⟩, bs⟩
  · exact List.forall_mem_nil _
  · exact tokens_occurrencesBindings bs _ h.2
  · obtain ⟨-, hvalue, hbs⟩ := h
    rw [occurrencesBindings]
    exact List.forall_mem_append.2
      ⟨value.tokens_occurrences _ hvalue, tokens_occurrencesBindings bs _ hbs⟩

theorem tokens_occurrencesMethods (decls : List FunctionDecl) (p : Path)
    (h : methodsSpelled P decls) : ∀ o ∈ occurrencesMethods decls p, P o.token := by
  cases decls with
  | nil => exact List.forall_mem_nil _
  | cons decl decls =>
    rw [occurrencesMethods]
    exact List.forall_mem_append.2
      ⟨decl.tokens_occurrences true _ h.1, tokens_occurrencesMethods decls _ h.2⟩

end

/-- A misuse is at one of the tokens that the program is spelled with. -/
theorem place_of_rejected {program : List Stmt} {d d' : Distances} {f : ScopeFault}
    (hp : stmtsSpelled P program) (h : resolveProgram program d = .rejected f d') :
    ∃ t, P t ∧ f.place = t.place := by
  rcases resolveProgram_judges program d with ⟨_, _, hpassed, -⟩ | ⟨f', _, hrejected, hmeets⟩
  · rw [hpassed] at h
    cases h
  · rw [hrejected] at h
    cases h
    obtain ⟨earlier, o, later, hos, -, -, hplace⟩ := hmeets
    refine ⟨o.token, tokens_occurrencesStmts program [] hp o ?_, hplace⟩
    rw [hos]
    exact List.mem_append_right _ List.mem_cons_self

end

/-! ### Units of source -/

namespace Session

open Lexer

variable {s s' : Session} {source : List UInt8} {program : List Stmt} {d : Diagnostic}

/-- A token on a line of the source. -/
def OnLine (source : List UInt8) (t : Token) : Prop :=
  HasLine source t.line

theorem hasLine_parse_error (h : s.parse source = (.error d, s')) :
    ∀ line ∈ d.lines, HasLine source line := by
  unfold parse at h
  split at h
  · next hscan =>
    cases h
    exact List.forall_mem_singleton.2 (hasLine_of_fault hscan)
  · next ts hscan =>
    split at h
    · next r _ hparse =>
      cases h
      have hend : ∃ t ∈ ts, t.isEnd := by
        obtain ⟨ts', rfl, -⟩ := terminated_tokens hscan
        exact ⟨_, List.mem_append_right _ List.mem_cons_self, rfl⟩
      have hplaces := (parseProgram_inOrder (tokens_sorted hscan) hend (congrArg Prod.fst hparse)).2
      refine List.forall_mem_map.2 fun f hf => ?_
      obtain ⟨t, ht, hplace⟩ := hplaces f hf
      rw [hplace, t.place_line]
      exact hasLine_of_token hscan t ht
    · cases h

theorem spelled_of_parse (h : s.parse source = (.ok program, s')) :
    stmtsSpelled (OnLine source) program ∧ s'.machine = s.machine := by
  unfold parse at h
  split at h
  · cases h
  · next ts hscan =>
    split at h
    · cases h
    · next hparse =>
      cases h
      refine ⟨stmtsSpelled_of_parseProgram (congrArg Prod.fst hparse) fun t ht _ => ?_, rfl⟩
      exact hasLine_of_token hscan t ht

theorem hasLine_resolve_error (hp : stmtsSpelled (OnLine source) program)
    (h : s.resolve program = (.error d, s')) : ∀ line ∈ d.lines, HasLine source line := by
  unfold resolve at h
  split at h
  · next hrejected =>
    cases h
    obtain ⟨t, ht, hplace⟩ := place_of_rejected hp hrejected
    refine List.forall_mem_singleton.2 ?_
    rw [hplace, t.place_line]
    exact ht
  · cases h

theorem heap_of_resolve {outcome : Except Diagnostic Unit} (h : s.resolve program = (outcome, s')) :
    s'.machine.heap = s.machine.heap := by
  unfold resolve at h
  split at h <;> cases h <;> rfl

theorem hasLine_fault {f : Fault} (h : f.Spelled (OnLine source)) :
    ∀ line ∈ (Diagnostic.runtime f).lines, HasLine source line := by
  cases f with
  | conversion => exact List.forall_mem_nil _
  | runtime cause line trace =>
    obtain ⟨t, ht, rfl⟩ := h
    exact List.forall_mem_singleton.2 ht

theorem hasLine_interpret {limit : Nat} (hp : stmtsSpelled (OnLine source) program)
    (hh : s.machine.heap.Spelled (OnLine source))
    (h : s.interpret limit program = some (.error d, s'))
    (hleak : ∀ f, d = .runtime f → f.isLeak = false) : ∀ line ∈ d.lines, HasLine source line := by
  unfold interpret at h
  split at h
  · cases h
  · next outcome m hi =>
    cases outcome with
    | ok values => cases h
    | error f =>
      cases h
      exact hasLine_fault ((Machine.spelled_interpret hh hp hi).2 f rfl (hleak f rfl))

/-- Whatever is wrong with a source, the diagnostic names a line, unless it is about a conversion, and
every line that it names is one of the source: lines are counted from 1, and there is one more than
line ends. -/
theorem diagnostics_on_lines {time : Float} {limit : Nat} {source : List UInt8} {d : Diagnostic}
    {s' : Session} (h : (start time).run limit source = some (.error d, s')) :
    (d.lines = [] → ∃ shown target, d = .runtime (.conversion shown target)) ∧
      ∀ line ∈ d.lines, 1 ≤ line ∧ line ≤ 1 + newlines source := by
  refine ⟨Diagnostic.lines_eq_nil, ?_⟩
  have hleak : ∀ f, d = .runtime f → f.isLeak = false :=
    fun f hf => ((fits_start time).run h).2 f (congrArg Except.error hf)
  unfold run at h
  cases hparse : (start time).parse source with
  | mk outcome s₁ =>
    rw [hparse] at h
    cases outcome with
    | error d' =>
      cases h
      exact hasLine_parse_error hparse
    | ok program =>
      obtain ⟨hp, hmachine⟩ := spelled_of_parse hparse
      dsimp only at h
      cases hresolve : s₁.resolve program with
      | mk outcome s₂ =>
        rw [hresolve] at h
        cases outcome with
        | error d' =>
          cases h
          exact hasLine_resolve_error hp hresolve
        | ok _ =>
          refine hasLine_interpret hp ?_ h hleak
          rw [heap_of_resolve hresolve, hmachine]
          exact Machine.spelled_initial time

/-- The body of a function reads a name on the second of three lines. -/
def undefinedUnit : List UInt8 :=
  "fun f() \x7b\n return g; \x7d\nf();".toUTF8.toList

theorem diagnostics_on_lines_undefined : ∃ d s',
    (start 0).run 99 undefinedUnit = some (.error d, s') ∧ d.lines = [2] ∧
      ∀ line ∈ d.lines, 1 ≤ line ∧ line ≤ 1 + newlines undefinedUnit := by
  have h : ((start 0).run 99 undefinedUnit).map (fun r => failure? r.1) =
      some (some (.runtime (.runtime (.undefinedVariable "g") 2 ["f", "<script>"]))) := by
    decide +kernel
  obtain ⟨⟨result, s'⟩, hrun, h⟩ := Option.map_eq_some_iff.1 h
  cases result with
  | ok values => cases h
  | error d =>
    cases h
    exact ⟨_, s', hrun, rfl, (diagnostics_on_lines hrun).2⟩

end Session

end TreeWalk
