import TreeWalk.Proofs.Equivariance
import TreeWalk.Tree.Scoping

/-!
# The walk over a renamed tree

The walk over a renamed tree goes as the walk over the tree itself and records the same distances
under the renamed references (`alike_resolveProgram`), provided that two references are never
renamed to one. It stops at the same misuse, on the renamed line.
-/

namespace TreeWalk

/-- Two references are never renamed to one. -/
def Renaming.Injective (ρ : Renaming) : Prop :=
  ∀ r r', ρ.reference r = ρ.reference r' → r = r'

theorem Distances.Agree.record {ρ : Renaming} {d d' : Distances} (h : d.Agree ρ d')
    (hρ : ρ.Injective) (reference distance : Nat) :
    (d.record reference distance).Agree ρ (d'.record (ρ.reference reference) distance) := by
  intro r
  rw [get?_record, get?_record, h r]
  by_cases hr : reference = r
  · rw [if_pos hr, if_pos (congrArg ρ.reference hr)]
  · rw [if_neg hr, if_neg fun heq => hr (hρ _ _ heq)]

def Place.rename (ρ : Renaming) (p : Place) : Place :=
  { p with line := ρ.line p.line }

theorem Token.place_rename (ρ : Renaming) (t : Token) :
    (t.rename ρ).place = t.place.rename ρ := by
  obtain ⟨kind, lexeme, line⟩ := t
  cases kind <;> rfl

def ScopeFault.rename (ρ : Renaming) (f : ScopeFault) : ScopeFault :=
  { f with place := f.place.rename ρ }

/-- The same result, or the same misuse on the renamed line, and the same distances under renamed
references. -/
inductive Verdict.Alike {α : Type} (ρ : Renaming) : Verdict α → Verdict α → Prop
  | passed {a : α} {d d' : Distances} (h : d.Agree ρ d') : Alike ρ (.passed a d) (.passed a d')
  | rejected {f : ScopeFault} {d d' : Distances} (h : d.Agree ρ d') :
      Alike ρ (.rejected f d) (.rejected (f.rename ρ) d')

namespace Walk

variable {α β : Type} {ρ : Renaming}

/-- From distances that agree the two walks go the same way. -/
def Alike (ρ : Renaming) (w w' : Walk α) : Prop :=
  ∀ d d', d.Agree ρ d' → (w d).Alike ρ (w' d')

theorem alike_pure (a : α) : Alike ρ (pure a) (pure a) := fun _ _ h => .passed h

theorem alike_reject (cause : ScopeCause) (t : Token) :
    Alike (α := α) ρ (reject cause t) (reject cause (t.rename ρ)) := by
  intro d d' h
  rw [reject, reject, Token.place_rename]
  exact .rejected h

theorem Alike.bind {w w' : Walk α} {f f' : α → Walk β} (hw : w.Alike ρ w')
    (hf : ∀ a, (f a).Alike ρ (f' a)) : Alike ρ (w >>= f) (w' >>= f') := by
  intro d d' h
  show Verdict.Alike ρ (Walk.bind w f d) (Walk.bind w' f' d')
  have hd := hw d d' h
  unfold Walk.bind
  generalize w d = v at hd
  generalize w' d' = v' at hd
  cases hd with
  | passed h => exact hf _ _ _ h
  | rejected h => exact .rejected h

end Walk

namespace Context

variable {ρ : Renaming}

theorem alike_declare (c : Context) (name : Token) :
    (c.declare name).Alike ρ (c.declare (name.rename ρ)) := by
  unfold declare
  split
  · exact Walk.alike_pure _
  · rw [Token.rename_lexeme]
    split
    · exact Walk.alike_reject _ _
    · exact Walk.alike_pure _

/-- Of a name that is added, only its text matters. -/
theorem alike_addAll {behind : Context → Token → Context}
    (hbehind : ∀ c name, behind c (name.rename ρ) = behind c name) (c : Context)
    (names : List Token) :
    (c.addAll behind names).Alike ρ (c.addAll behind (names.map (·.rename ρ))) := by
  induction names generalizing c with
  | nil => exact Walk.alike_pure _
  | cons name names ih =>
    refine (alike_declare c name).bind fun c => ?_
    rw [hbehind]
    exact ih (behind c name)

theorem alike_locate (hρ : ρ.Injective) (c : Context) (reference : Nat) (name : Token) :
    (c.locate reference name).Alike ρ (c.locate (ρ.reference reference) (name.rename ρ)) := by
  unfold locate
  rw [Token.rename_lexeme]
  split
  · exact fun d d' h => .passed (h.record hρ _ _)
  · exact Walk.alike_pure _

end Context

theorem map_fst_renameBindings (ρ : Renaming) (bs : List (Token × Option Expr)) :
    (renameBindings ρ bs).map Prod.fst = (bs.map Prod.fst).map (·.rename ρ) := by
  induction bs with
  | nil => rfl
  | cons b rest ih => obtain ⟨name, _ | value⟩ := b <;> exact congrArg _ ih

theorem foldl_define_renameBindings (ρ : Renaming) (bs : List (Token × Option Expr)) (c : Context) :
    (renameBindings ρ bs).foldl (fun c b => c.define b.1) c =
      bs.foldl (fun c b => c.define b.1) c := by
  induction bs generalizing c with
  | nil => rfl
  | cons b rest ih => obtain ⟨name, _ | value⟩ := b <;> exact ih (c.define name)

mutual

theorem Expr.alike {ρ : Renaming} (hρ : ρ.Injective) (e : Expr) (c : Context) :
    (e.resolve c).Alike ρ ((e.rename ρ).resolve c) := by
  cases e with
  | literal value =>
    rw [Expr.rename, Expr.resolve]
    exact Walk.alike_pure _
  | group e | unary _ e _ | get e _ =>
    rw [Expr.rename, Expr.resolve, Expr.resolve]
    exact e.alike hρ c
  | binary left _ right | logical left _ right | index left _ right | set left _ right =>
    rw [Expr.rename, Expr.resolve, Expr.resolve]
    exact (left.alike hρ c).bind fun _ => right.alike hρ c
  | ternary condition whenTrue whenFalse =>
    rw [Expr.rename, Expr.resolve, Expr.resolve]
    exact (condition.alike hρ c).bind fun _ =>
      (whenTrue.alike hρ c).bind fun _ => whenFalse.alike hρ c
  | «variable» reference name =>
    rw [Expr.rename, Expr.resolve, Expr.resolve, Token.rename_lexeme]
    split
    · exact Walk.alike_reject _ _
    · exact c.alike_locate hρ reference name
  | assign reference name value =>
    rw [Expr.rename, Expr.resolve, Expr.resolve]
    exact (value.alike hρ c).bind fun _ => c.alike_locate hρ reference name
  | call callee paren arguments =>
    rw [Expr.rename, Expr.resolve, Expr.resolve]
    exact (callee.alike hρ c).bind fun _ => alike_exprs hρ arguments c
  | array bracket elements =>
    rw [Expr.rename, Expr.resolve, Expr.resolve]
    exact alike_exprs hρ elements c
  | this reference keyword =>
    rw [Expr.rename, Expr.resolve, Expr.resolve]
    split
    · exact c.alike_locate hρ reference keyword
    · exact Walk.alike_reject _ _
  | lambda decl =>
    rw [Expr.rename, Expr.resolve, Expr.resolve]
    exact decl.alike hρ .function c

theorem alike_exprs {ρ : Renaming} (hρ : ρ.Injective) (es : List Expr) (c : Context) :
    (resolveExprs es c).Alike ρ (resolveExprs (renameExprs ρ es) c) := by
  cases es with
  | nil =>
    rw [renameExprs, resolveExprs]
    exact Walk.alike_pure _
  | cons e es =>
    rw [renameExprs, resolveExprs, resolveExprs]
    exact (e.alike hρ c).bind fun _ => alike_exprs hρ es c

theorem FunctionDecl.alike {ρ : Renaming} (hρ : ρ.Injective) (decl : FunctionDecl) (kind : Body)
    (c : Context) : (decl.resolve kind c).Alike ρ ((decl.rename ρ).resolve kind c) := by
  obtain ⟨name, parameters, body, keyword⟩ := decl
  rw [FunctionDecl.rename, FunctionDecl.resolve, FunctionDecl.resolve]
  exact (Context.alike_addAll (fun _ _ => rfl) _ _).bind fun c =>
    (alike_stmts hρ body _).bind fun _ => Walk.alike_pure _

theorem Stmt.alike {ρ : Renaming} (hρ : ρ.Injective) (s : Stmt) (c : Context) :
    (s.resolve c).Alike ρ ((s.rename ρ).resolve c) := by
  cases s with
  | block body =>
    rw [Stmt.rename, Stmt.resolve, Stmt.resolve]
    exact (alike_stmts hρ body _).bind fun _ => Walk.alike_pure _
  | expression value | print value =>
    rw [Stmt.rename, Stmt.resolve, Stmt.resolve]
    exact (value.alike hρ c).bind fun _ => Walk.alike_pure _
  | var bindings =>
    rw [Stmt.rename, Stmt.resolve, Stmt.resolve, map_fst_renameBindings]
    refine (Context.alike_addAll (fun _ _ => rfl) _ _).bind fun c =>
      (alike_bindings hρ bindings c).bind fun _ => ?_
    rw [foldl_define_renameBindings]
    exact Walk.alike_pure _
  | function decl =>
    have hname : (decl.rename ρ).name.toList = decl.name.toList.map (·.rename ρ) := by
      obtain ⟨_ | name, parameters, body, keyword⟩ := decl <;> rfl
    rw [Stmt.rename, Stmt.resolve, Stmt.resolve, hname]
    exact (Context.alike_addAll (fun _ _ => rfl) _ _).bind fun c =>
      (decl.alike hρ .function c).bind fun _ => Walk.alike_pure _
  | classDecl name methods =>
    rw [Stmt.rename, Stmt.resolve, Stmt.resolve]
    exact (Context.alike_addAll (fun _ _ => rfl) _ [name]).bind fun c =>
      (alike_methods hρ methods _).bind fun _ => Walk.alike_pure _
  | conditional condition whenTrue whenFalse =>
    cases whenFalse with
    | none =>
      rw [Stmt.rename, Stmt.resolve, Stmt.resolve]
      exact (condition.alike hρ c).bind fun _ => whenTrue.alike hρ c
    | some whenFalse =>
      rw [Stmt.rename, Stmt.resolve, Stmt.resolve]
      exact (condition.alike hρ c).bind fun _ =>
        (whenTrue.alike hρ c).bind fun c => whenFalse.alike hρ c
  | loop condition body increment =>
    cases increment with
    | none =>
      rw [Stmt.rename, Stmt.resolve, Stmt.resolve]
      exact (condition.alike hρ c).bind fun _ => body.alike hρ c
    | some increment =>
      rw [Stmt.rename, Stmt.resolve, Stmt.resolve]
      exact (condition.alike hρ c).bind fun _ => (body.alike hρ c).bind fun c =>
        (increment.alike hρ c).bind fun _ => Walk.alike_pure _
  | returning keyword value =>
    cases value with
    | none =>
      rw [Stmt.rename, Stmt.resolve, Stmt.resolve]
      split
      · exact Walk.alike_reject _ _
      · exact Walk.alike_pure _
    | some value =>
      rw [Stmt.rename, Stmt.resolve, Stmt.resolve]
      split
      · exact Walk.alike_reject _ _
      · split
        · exact Walk.alike_reject _ _
        · exact (value.alike hρ c).bind fun _ => Walk.alike_pure _
  | breaking | continuing =>
    rw [Stmt.rename, Stmt.resolve, Stmt.resolve]
    exact Walk.alike_pure _

theorem alike_stmts {ρ : Renaming} (hρ : ρ.Injective) (ss : List Stmt) (c : Context) :
    (resolveStmts ss c).Alike ρ (resolveStmts (renameStmts ρ ss) c) := by
  cases ss with
  | nil =>
    rw [renameStmts, resolveStmts]
    exact Walk.alike_pure _
  | cons s ss =>
    rw [renameStmts, resolveStmts, resolveStmts]
    exact (s.alike hρ c).bind fun c => alike_stmts hρ ss c

theorem alike_bindings {ρ : Renaming} (hρ : ρ.Injective) (bs : List (Token × Option Expr))
    (c : Context) : (resolveBindings bs c).Alike ρ (resolveBindings (renameBindings ρ bs) c) := by
  match bs with
  | [] =>
    rw [renameBindings, resolveBindings]
    exact Walk.alike_pure _
  | (_, none) :: bs =>
    rw [renameBindings, resolveBindings, resolveBindings]
    exact alike_bindings hρ bs c
  | (_, some value) :: bs =>
    rw [renameBindings, resolveBindings, resolveBindings]
    exact (value.alike hρ c).bind fun _ => alike_bindings hρ bs c

theorem alike_methods {ρ : Renaming} (hρ : ρ.Injective) (fs : List FunctionDecl) (c : Context) :
    (resolveMethods fs c).Alike ρ (resolveMethods (renameMethods ρ fs) c) := by
  cases fs with
  | nil =>
    rw [renameMethods, resolveMethods]
    exact Walk.alike_pure _
  | cons f fs =>
    have hbody : (f.rename ρ).methodBody = f.methodBody := by
      rw [FunctionDecl.methodBody, FunctionDecl.methodBody, FunctionDecl.label_rename]
    rw [renameMethods, resolveMethods, resolveMethods, hbody]
    exact (f.alike hρ _ c).bind fun _ => alike_methods hρ fs c

end

theorem alike_resolveProgram {ρ : Renaming} (hρ : ρ.Injective) (program : List Stmt) :
    (resolveProgram program).Alike ρ (resolveProgram (renameStmts ρ program)) :=
  (alike_stmts hρ program .top).bind fun _ => Walk.alike_pure _

end TreeWalk
