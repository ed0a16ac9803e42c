import TreeWalk.Tree.Scoping
import TreeWalk.Proofs.References

/-!
# Where the walk goes

`Visits part p part' p'` says that the walk over scopes, when it comes to `part` in the setting `p`,
comes to `part'` in the setting `p'`. A setting is the context of the walk together with what each
of its scopes stands for. The walk over a part is the walks over its children one after the other,
and after them the distance of its own reference, if it carries one (`Part.walked_of_resolve`).
-/

namespace TreeWalk

/-! ### Settings -/

/-- What a scope stands for. -/
inductive Site where
  | globals
  | block (body : List Stmt)
  | parameters (decl : FunctionDecl)
  | body (decl : FunctionDecl)
  /-- The scope of `this` around a method. -/
  | bound (decl : FunctionDecl)

namespace Context

/-- Names added to the innermost scope, without values. -/
def declared (c : Context) (names : List Token) : Context :=
  names.foldl (fun c name => c.mark name false) c

/-- Names of the innermost scope that have their values now. -/
def defined (c : Context) (names : List Token) : Context :=
  names.foldl (fun c name => c.define name) c

/-- Names added to the innermost scope, each with its value. -/
def introduced (c : Context) (names : List Token) : Context :=
  names.foldl (fun c name => (c.mark name false).define name) c

end Context

def Stmt.after : Stmt → Context → Context
  | .var bindings, c => (c.declared (bindings.map Prod.fst)).defined (bindings.map Prod.fst)
  | .function decl, c => c.introduced decl.name.toList
  | .classDecl name _, c => c.introduced [name]
  | .conditional _ whenTrue none, c => whenTrue.after c
  | .conditional _ whenTrue (some whenFalse), c => whenFalse.after (whenTrue.after c)
  | .loop _ body _, c => body.after c
  | _, c => c

/-- What surrounds a place of the tree. -/
structure Setting where
  context : Context
  /-- What each scope of the context stands for. -/
  sites : List Site
  /-- Whether a loop of the function at hand surrounds the place. -/
  inLoop : Bool

namespace Setting

def top : Setting := ⟨.top, [], false⟩

def after (p : Setting) (s : Stmt) : Setting :=
  { p with context := s.after p.context }

def inBlock (p : Setting) (body : List Stmt) : Setting :=
  { p with context := p.context.enter [], sites := .block body :: p.sites }

/-- Inside the body of a function: parameters and body have a scope each. -/
def inBody (p : Setting) (decl : FunctionDecl) (kind : Body) : Setting where
  context := (({ p.context with body := kind }.enter []).introduced decl.parameters).enter []
  sites := .body decl :: .parameters decl :: p.sites
  inLoop := false

def inClass (p : Setting) (decl : FunctionDecl) : Setting :=
  { p with context := p.context.enterClass, sites := .bound decl :: p.sites }

end Setting

/-! ### What a statement leaves as it is -/

namespace Context

theorem body_mark (c : Context) (name : Token) (b : Bool) : (c.mark name b).body = c.body := by
  unfold mark
  split <;> rfl

/-- However names are added to the innermost scope, the function around them is the same. -/
theorem body_foldl {g : Context → Token → Context} (hg : ∀ c name, (g c name).body = c.body)
    (names : List Token) (c : Context) : (names.foldl g c).body = c.body := by
  induction names generalizing c with
  | nil => rfl
  | cons name names ih => exact (ih _).trans (hg c name)

theorem body_declared (c : Context) (names : List Token) : (c.declared names).body = c.body :=
  body_foldl (fun c name => body_mark c name false) names c

theorem body_defined (c : Context) (names : List Token) : (c.defined names).body = c.body :=
  body_foldl (fun c name => body_mark c name true) names c

theorem body_introduced (c : Context) (names : List Token) : (c.introduced names).body = c.body :=
  body_foldl (fun c name => (body_mark _ name true).trans (body_mark c name false)) names c

end Context

theorem Stmt.body_after (s : Stmt) (c : Context) : (s.after c).body = c.body := by
  cases s with
  | block | expression | print | returning | breaking | continuing => rfl
  | var bindings => exact (Context.body_defined _ _).trans (Context.body_declared _ _)
  | function decl => exact Context.body_introduced _ _
  | classDecl name methods => exact Context.body_introduced _ _
  | conditional condition whenTrue whenFalse =>
    cases whenFalse with
    | none => exact whenTrue.body_after c
    | some whenFalse => exact (whenFalse.body_after _).trans (whenTrue.body_after c)
  | loop condition body increment => exact body.body_after c

namespace Setting

theorem inLoop_afterAll (ss : List Stmt) (p : Setting) :
    (ss.foldl Setting.after p).inLoop = p.inLoop := by
  induction ss generalizing p with
  | nil => rfl
  | cons s ss ih => exact ih (p.after s)

theorem body_afterAll (ss : List Stmt) (p : Setting) :
    (ss.foldl Setting.after p).context.body = p.context.body := by
  induction ss generalizing p with
  | nil => rfl
  | cons s ss ih => exact (ih (p.after s)).trans (s.body_after p.context)

end Setting

/-! ### Parts of a tree and their children -/

inductive Part where
  | expr (e : Expr)
  | stmt (s : Stmt)
  | stmts (ss : List Stmt)

/-- The expressions directly inside of one, in the order in which they are walked. -/
def Expr.operands : Expr → List Expr
  | .literal _ | .variable _ _ | .this _ _ | .lambda _ => []
  | .group inner => [inner]
  | .unary _ operand _ => [operand]
  | .binary left _ right => [left, right]
  | .logical left _ right => [left, right]
  | .ternary condition whenTrue whenFalse => [condition, whenTrue, whenFalse]
  | .assign _ _ value => [value]
  | .call callee _ arguments => callee :: arguments
  | .array _ elements => elements
  | .index collection _ position => [collection, position]
  | .get object _ => [object]
  | .set object _ value => [object, value]

namespace Part

def exprs (es : List Expr) (p : Setting) : List (Part × Setting) :=
  es.map fun e => (.expr e, p)

/-- The parts that are walked for a part, in order, each with its setting. -/
def children : Part → Setting → List (Part × Setting)
  | .expr (.lambda decl), p => [(.stmts decl.body, p.inBody decl .function)]
  | .expr e, p => exprs e.operands p
  | .stmts [], _ => []
  | .stmts (s :: rest), p => [(.stmt s, p), (.stmts rest, p.after s)]
  | .stmt (.block body), p => [(.stmts body, p.inBlock body)]
  | .stmt (.expression value), p => exprs [value] p
  | .stmt (.print value), p => exprs [value] p
  | .stmt (.var bindings), p =>
    exprs (bindings.filterMap Prod.snd)
      { p with context := p.context.declared (bindings.map Prod.fst) }
  | .stmt (.function decl), p =>
    [(.stmts decl.body, (p.after (.function decl)).inBody decl .function)]
  | .stmt (.classDecl name methods), p =>
    methods.map fun decl =>
      (.stmts decl.body,
        ((p.after (.classDecl name methods)).inClass decl).inBody decl decl.methodBody)
  | .stmt (.conditional condition whenTrue none), p =>
    [(.expr condition, p), (.stmt whenTrue, p)]
  | .stmt (.conditional condition whenTrue (some whenFalse)), p =>
    [(.expr condition, p), (.stmt whenTrue, p), (.stmt whenFalse, p.after whenTrue)]
  | .stmt (.loop condition body increment), p =>
    (.expr condition, p) :: (.stmt body, { p with inLoop := true }) ::
      exprs increment.toList (p.after body)
  | .stmt (.returning _ value), p => exprs value.toList p
  | .stmt (.breaking _), _ => []
  | .stmt (.continuing _), _ => []

def resolve : Part → Context → Walk Unit
  | .expr e, c => e.resolve c
  | .stmt s, c => do
    let _ ← s.resolve c
    return ()
  | .stmts ss, c => do
    let _ ← resolveStmts ss c
    return ()

/-- The reference that a part itself carries, and the name it refers to. -/
def own? : Part → Option (Nat × Token)
  | .expr (.variable reference name) => some (reference, name)
  | .expr (.assign reference name _) => some (reference, name)
  | .expr (.this reference keyword) => some (reference, keyword)
  | _ => none

/-- The distances after that of the part's own reference has been recorded. -/
def note (part : Part) (c : Context) (d : Distances) : Distances :=
  match part.own? with
  | none => d
  | some (reference, name) =>
    match c.distance? name.lexeme with
    | some distance => d.record reference distance
    | none => d

def references : Part → List Nat
  | .expr e => e.references
  | .stmt s => s.references
  | .stmts ss => referencesStmts ss

end Part

/-- Walking `part` in the setting `p` leads to `part'` in the setting `p'`. -/
inductive Visits : Part → Setting → Part → Setting → Prop
  | here {part p} : Visits part p part p
  | inside {part p child q part' p'} (hc : (child, q) ∈ part.children p)
      (h : Visits child q part' p') : Visits part p part' p'

theorem Visits.trans {part part' part'' : Part} {p p' p'' : Setting} (h : Visits part p part' p')
    (h' : Visits part' p' part'' p'') : Visits part p part'' p'' := by
  induction h with
  | here => exact h'
  | inside hc _ ih => exact .inside hc (ih h')

theorem Visits.child {part child : Part} {p q : Setting} (hc : (child, q) ∈ part.children p) :
    Visits part p child q :=
  .inside hc .here

/-! ### Passing walks taken apart -/

namespace Walk

variable {α β : Type} {d d' : Distances}

theorem bind_passed {w : Walk α} {f : α → Walk β} {b : β} (h : (w >>= f) d = .passed b d') :
    ∃ a d₁, w d = .passed a d₁ ∧ f a d₁ = .passed b d' := by
  change Walk.bind w f d = .passed b d' at h
  unfold Walk.bind at h
  split at h
  · next a d₁ hw => exact ⟨a, d₁, hw, h⟩
  · cases h

theorem pure_passed {a b : α} (h : (pure a : Walk α) d = .passed b d') : a = b ∧ d = d' := by
  cases h
  exact ⟨rfl, rfl⟩

end Walk

namespace Context

variable {c c' : Context} {d d' : Distances}

theorem mark_nil (h : c.scopes = []) (name : Token) (b : Bool) : c.mark name b = c := by
  unfold mark
  rw [h]

theorem declare_passed {name : Token} (h : c.declare name d = .passed c' d') :
    c' = c.mark name false ∧ d' = d := by
  rw [declare] at h
  cases hs : c.scopes with
  | nil =>
    rw [hs] at h
    cases h
    exact ⟨(mark_nil hs name false).symm, rfl⟩
  | cons scope outer =>
    rw [hs] at h
    dsimp only at h
    split at h
    · cases h
    · cases h
      exact ⟨rfl, rfl⟩

theorem addAll_passed {behind : Context → Token → Context} {names : List Token}
    (h : c.addAll behind names d = .passed c' d') :
    c' = names.foldl (fun c name => behind (c.mark name false) name) c ∧ d' = d := by
  induction names generalizing c d with
  | nil =>
    cases h
    exact ⟨rfl, rfl⟩
  | cons name names ih =>
    rw [addAll] at h
    obtain ⟨c₁, d₁, hd, hm⟩ := Walk.bind_passed h
    obtain ⟨rfl, rfl⟩ := declare_passed hd
    exact ih hm

theorem locate_passed {reference : Nat} {name : Token} {part : Part}
    (hown : part.own? = some (reference, name)) (h : c.locate reference name d = .passed () d') :
    d' = part.note c d := by
  rw [Part.note, hown]
  rw [locate] at h
  cases hdist : c.distance? name.lexeme with
  | none =>
    rw [hdist] at h
    cases h
    simp only [hdist]
  | some distance =>
    rw [hdist] at h
    cases h
    simp only [hdist]

end Context

/-- A statement passes on the context behind it. -/
theorem Stmt.after_of_resolve (s : Stmt) {c c' : Context} {d d' : Distances}
    (h : s.resolve c d = .passed c' d') : c' = s.after c := by
  cases s with
  | block | expression | print =>
    rw [Stmt.resolve] at h
    obtain ⟨_, d₁, -, k₁⟩ := Walk.bind_passed h
    obtain ⟨rfl, rfl⟩ := Walk.pure_passed k₁
    rfl
  | var bindings =>
    rw [Stmt.resolve] at h
    obtain ⟨c₁, d₁, hd, k₁⟩ := Walk.bind_passed h
    obtain ⟨hc₁, rfl⟩ := Context.addAll_passed hd
    obtain rfl : c₁ = c.declared (bindings.map Prod.fst) := hc₁
    obtain ⟨_, d₂, -, k₂⟩ := Walk.bind_passed k₁
    obtain ⟨rfl, rfl⟩ := Walk.pure_passed k₂
    rw [Stmt.after, Context.defined, List.foldl_map]
  | function decl =>
    rw [Stmt.resolve] at h
    obtain ⟨c₁, d₁, hd, k₁⟩ := Walk.bind_passed h
    obtain ⟨rfl, rfl⟩ := Context.addAll_passed hd
    obtain ⟨_, d₂, -, k₂⟩ := Walk.bind_passed k₁
    obtain ⟨rfl, rfl⟩ := Walk.pure_passed k₂
    rfl
  | classDecl name methods =>
    rw [Stmt.resolve] at h
    obtain ⟨c₁, d₁, hd, k₁⟩ := Walk.bind_passed h
    obtain ⟨rfl, rfl⟩ := Context.addAll_passed hd
    obtain ⟨_, d₂, -, k₂⟩ := Walk.bind_passed k₁
    obtain ⟨rfl, rfl⟩ := Walk.pure_passed k₂
    rfl
  | conditional condition whenTrue whenFalse =>
    cases whenFalse with
    | none =>
      rw [Stmt.resolve] at h
      obtain ⟨_, d₁, -, k₁⟩ := Walk.bind_passed h
      exact after_of_resolve whenTrue k₁
    | some whenFalse =>
      rw [Stmt.resolve] at h
      obtain ⟨_, d₁, -, k₁⟩ := Walk.bind_passed h
      obtain ⟨c₁, d₂, ht, k₂⟩ := Walk.bind_passed k₁
      obtain rfl := after_of_resolve whenTrue ht
      exact after_of_resolve whenFalse k₂
  | loop condition body increment =>
    cases increment with
    | none =>
      rw [Stmt.resolve] at h
      obtain ⟨_, d₁, -, k₁⟩ := Walk.bind_passed h
      exact after_of_resolve body k₁
    | some increment =>
      rw [Stmt.resolve] at h
      obtain ⟨_, d₁, -, k₁⟩ := Walk.bind_passed h
      obtain ⟨c₁, d₂, hb, k₂⟩ := Walk.bind_passed k₁
      obtain rfl := after_of_resolve body hb
      obtain ⟨_, d₃, -, k₃⟩ := Walk.bind_passed k₂
      obtain ⟨rfl, rfl⟩ := Walk.pure_passed k₃
      rfl
  | returning keyword value =>
    cases value with
    | none =>
      rw [Stmt.resolve] at h
      split at h
      · cases h
      · obtain ⟨rfl, rfl⟩ := Walk.pure_passed h
        rfl
    | some value =>
      rw [Stmt.resolve] at h
      split at h
      · cases h
      · split at h
        · cases h
        · obtain ⟨_, d₁, -, k₁⟩ := Walk.bind_passed h
          obtain ⟨rfl, rfl⟩ := Walk.pure_passed k₁
          rfl
  | breaking | continuing =>
    rw [Stmt.resolve] at h
    obtain ⟨rfl, rfl⟩ := Walk.pure_passed h
    rfl

/-- Parts were walked one after the other, and all of them passed. -/
inductive Walked : List (Part × Setting) → Distances → Distances → Prop
  | nil {d} : Walked [] d d
  | cons {part p more d d₁ d'} (h : part.resolve p.context d = .passed () d₁)
      (hm : Walked more d₁ d') : Walked ((part, p) :: more) d d'

namespace Walked

variable {p : Setting} {d d' : Distances}

theorem single {part : Part} (h : part.resolve p.context d = .passed () d') :
    Walked [(part, p)] d d' :=
  .cons h .nil

theorem stmt {s : Stmt} {c : Context} {more : List (Part × Setting)} {d₁ : Distances}
    (h : s.resolve p.context d = .passed c d₁) (hm : Walked more d₁ d') :
    Walked ((.stmt s, p) :: more) d d' := by
  refine .cons ?_ hm
  show Walk.bind (s.resolve p.context) _ d = _
  rw [Walk.bind, h]
  rfl

theorem stmts {ss : List Stmt} {c : Context} (h : resolveStmts ss p.context d = .passed c d') :
    Walked [(.stmts ss, p)] d d' := by
  refine .single ?_
  show Walk.bind (resolveStmts ss p.context) _ d = _
  rw [Walk.bind, h]
  rfl

theorem exprs {es : List Expr} (h : resolveExprs es p.context d = .passed () d') :
    Walked (Part.exprs es p) d d' := by
  induction es generalizing d with
  | nil =>
    rw [resolveExprs] at h
    obtain ⟨-, rfl⟩ := Walk.pure_passed h
    exact .nil
  | cons e es ih =>
    rw [resolveExprs] at h
    obtain ⟨_, d₁, he, k₁⟩ := Walk.bind_passed h
    exact .cons he (ih k₁)

theorem bindings {bs : List (Token × Option Expr)}
    (h : resolveBindings bs p.context d = .passed () d') :
    Walked (Part.exprs (bs.filterMap Prod.snd) p) d d' := by
  induction bs generalizing d with
  | nil =>
    rw [resolveBindings] at h
    obtain ⟨-, rfl⟩ := Walk.pure_passed h
    exact .nil
  | cons b bs ih =>
    obtain ⟨name, _ | value⟩ := b
    · rw [resolveBindings] at h
      exact ih h
    · rw [resolveBindings] at h
      obtain ⟨_, d₁, he, k₁⟩ := Walk.bind_passed h
      exact .cons he (ih k₁)

/-- The walk over a function is the walk over its body. -/
theorem function {decl : FunctionDecl} {kind : Body} {more : List (Part × Setting)}
    {d₁ : Distances} (h : decl.resolve kind p.context d = .passed () d₁) (hm : Walked more d₁ d') :
    Walked ((.stmts decl.body, p.inBody decl kind) :: more) d d' := by
  obtain ⟨name, parameters, body, keyword⟩ := decl
  rw [FunctionDecl.resolve] at h
  obtain ⟨c, d₂, hp, k₁⟩ := Walk.bind_passed h
  obtain ⟨rfl, rfl⟩ := Context.addAll_passed hp
  exact .cons k₁ hm

theorem methods {decls : List FunctionDecl}
    (h : resolveMethods decls p.context.enterClass d = .passed () d') :
    Walked (decls.map fun decl =>
      (.stmts decl.body, (p.inClass decl).inBody decl decl.methodBody)) d d' := by
  induction decls generalizing d with
  | nil =>
    rw [resolveMethods] at h
    obtain ⟨-, rfl⟩ := Walk.pure_passed h
    exact .nil
  | cons decl decls ih =>
    rw [resolveMethods] at h
    obtain ⟨_, d₁, hd, k₁⟩ := Walk.bind_passed h
    exact .function (p := p.inClass decl) hd (ih k₁)

end Walked

section

variable {p : Setting} {d d' : Distances}

theorem Expr.walked_of_resolve {e : Expr} (h : e.resolve p.context d = .passed () d') :
    ∃ d₁, Walked ((Part.expr e).children p) d d₁ ∧ d' = (Part.expr e).note p.context d₁ := by
  cases e with
  | literal value =>
    rw [Expr.resolve] at h
    obtain ⟨-, rfl⟩ := Walk.pure_passed h
    exact ⟨d, .nil, rfl⟩
  | group e | unary _ e _ | get e _ =>
    rw [Expr.resolve] at h
    exact ⟨d', .single h, rfl⟩
  | binary left _ right | logical left _ right | index left _ right | set left _ right =>
    rw [Expr.resolve] at h
    obtain ⟨_, d₁, hl, k₁⟩ := Walk.bind_passed h
    exact ⟨d', .cons hl (.single k₁), rfl⟩
  | ternary condition whenTrue whenFalse =>
    rw [Expr.resolve] at h
    obtain ⟨_, d₁, hc, k₁⟩ := Walk.bind_passed h
    obtain ⟨_, d₂, ht, k₂⟩ := Walk.bind_passed k₁
    exact ⟨d', .cons hc (.cons ht (.single k₂)), rfl⟩
  | «variable» reference name =>
    rw [Expr.resolve] at h
    split at h
    · cases h
    · exact ⟨d, .nil, Context.locate_passed rfl h⟩
  | assign reference name value =>
    rw [Expr.resolve] at h
    obtain ⟨_, d₁, hv, k₁⟩ := Walk.bind_passed h
    exact ⟨d₁, .single hv, Context.locate_passed rfl k₁⟩
  | call callee paren arguments =>
    rw [Expr.resolve] at h
    obtain ⟨_, d₁, hc, k₁⟩ := Walk.bind_passed h
    exact ⟨d', .cons hc (.exprs k₁), rfl⟩
  | array bracket elements =>
    rw [Expr.resolve] at h
    exact ⟨d', .exprs h, rfl⟩
  | this reference keyword =>
    rw [Expr.resolve] at h
    split at h
    · exact ⟨d, .nil, Context.locate_passed rfl h⟩
    · cases h
  | lambda decl =>
    rw [Expr.resolve] at h
    exact ⟨d', .function h .nil, rfl⟩

theorem Stmt.walked_of_resolve {s : Stmt} {c : Context} (h : s.resolve p.context d = .passed c d') :
    Walked ((Part.stmt s).children p) d d' := by
  cases s with
  | block body =>
    rw [Stmt.resolve] at h
    obtain ⟨_, d₁, hb, k₁⟩ := Walk.bind_passed h
    obtain ⟨-, rfl⟩ := Walk.pure_passed k₁
    exact .stmts (p := p.inBlock body) hb
  | expression value | print value =>
    rw [Stmt.resolve] at h
    obtain ⟨_, d₁, hv, k₁⟩ := Walk.bind_passed h
    obtain ⟨-, rfl⟩ := Walk.pure_passed k₁
    exact .single hv
  | var bindings =>
    rw [Stmt.resolve] at h
    obtain ⟨c₁, d₁, hd, k₁⟩ := Walk.bind_passed h
    obtain ⟨rfl, rfl⟩ := Context.addAll_passed hd
    obtain ⟨_, d₂, hb, k₂⟩ := Walk.bind_passed k₁
    obtain ⟨-, rfl⟩ := Walk.pure_passed k₂
    exact .bindings (p := { p with context := p.context.declared (bindings.map Prod.fst) }) hb
  | function decl =>
    rw [Stmt.resolve] at h
    obtain ⟨c₁, d₁, hd, k₁⟩ := Walk.bind_passed h
    obtain ⟨rfl, rfl⟩ := Context.addAll_passed hd
    obtain ⟨_, d₂, hf, k₂⟩ := Walk.bind_passed k₁
    obtain ⟨-, rfl⟩ := Walk.pure_passed k₂
    exact .function (p := p.after (.function decl)) hf .nil
  | classDecl name methods =>
    rw [Stmt.resolve] at h
    obtain ⟨c₁, d₁, hd, k₁⟩ := Walk.bind_passed h
    obtain ⟨rfl, rfl⟩ := Context.addAll_passed hd
    obtain ⟨_, d₂, hm, k₂⟩ := Walk.bind_passed k₁
    obtain ⟨-, rfl⟩ := Walk.pure_passed k₂
    exact .methods (p := p.after (.classDecl name methods)) hm
  | conditional condition whenTrue whenFalse =>
    cases whenFalse with
    | none =>
      rw [Stmt.resolve] at h
      obtain ⟨_, d₁, hc, k₁⟩ := Walk.bind_passed h
      exact .cons hc (.stmt k₁ .nil)
    | some whenFalse =>
      rw [Stmt.resolve] at h
      obtain ⟨_, d₁, hc, k₁⟩ := Walk.bind_passed h
      obtain ⟨c₁, d₂, ht, k₂⟩ := Walk.bind_passed k₁
      obtain rfl := whenTrue.after_of_resolve ht
      exact .cons hc (.stmt ht (.stmt (p := p.after whenTrue) k₂ .nil))
  | loop condition body increment =>
    cases increment with
    | none =>
      rw [Stmt.resolve] at h
      obtain ⟨_, d₁, hc, k₁⟩ := Walk.bind_passed h
      exact .cons hc (.stmt (p := { p with inLoop := true }) k₁ .nil)
    | some increment =>
      rw [Stmt.resolve] at h
      obtain ⟨_, d₁, hc, k₁⟩ := Walk.bind_passed h
      obtain ⟨c₁, d₂, hb, k₂⟩ := Walk.bind_passed k₁
      obtain rfl := body.after_of_resolve hb
      obtain ⟨_, d₃, hi, k₃⟩ := Walk.bind_passed k₂
      obtain ⟨-, rfl⟩ := Walk.pure_passed k₃
      exact .cons hc (.stmt (p := { p with inLoop := true }) hb (.single (p := p.after body) hi))
  | returning keyword value =>
    cases value with
    | none =>
      rw [Stmt.resolve] at h
      split at h
      · cases h
      · obtain ⟨-, rfl⟩ := Walk.pure_passed h
        exact .nil
    | some value =>
      rw [Stmt.resolve] at h
      split at h
      · cases h
      · split at h
        · cases h
        · obtain ⟨_, d₁, hv, k₁⟩ := Walk.bind_passed h
          obtain ⟨-, rfl⟩ := Walk.pure_passed k₁
          exact .single hv
  | breaking | continuing =>
    rw [Stmt.resolve] at h
    obtain ⟨-, rfl⟩ := Walk.pure_passed h
    exact .nil

/-- A part passes if its children do, one after the other; then its own distance is recorded. -/
theorem Part.walked_of_resolve {part : Part} (h : part.resolve p.context d = .passed () d') :
    ∃ d₁, Walked (part.children p) d d₁ ∧ d' = part.note p.context d₁ := by
  cases part with
  | expr e => exact e.walked_of_resolve h
  | stmt s =>
    rw [Part.resolve] at h
    obtain ⟨c, d₁, hs, k₁⟩ := Walk.bind_passed h
    obtain ⟨-, rfl⟩ := Walk.pure_passed k₁
    exact ⟨d₁, s.walked_of_resolve hs, rfl⟩
  | stmts ss =>
    rw [Part.resolve] at h
    obtain ⟨c, d₁, hs, k₁⟩ := Walk.bind_passed h
    obtain ⟨-, rfl⟩ := Walk.pure_passed k₁
    refine ⟨d₁, ?_, rfl⟩
    cases ss with
    | nil =>
      rw [resolveStmts] at hs
      obtain ⟨-, rfl⟩ := Walk.pure_passed hs
      exact .nil
    | cons s rest =>
      rw [resolveStmts] at hs
      obtain ⟨c₁, d₂, hfirst, k₂⟩ := Walk.bind_passed hs
      obtain rfl := s.after_of_resolve hfirst
      exact .stmt hfirst (.stmts (p := p.after s) k₂)

end

/-! ### Parts that pass -/

/-- The walk over the part finds no misuse. Whether it does so does not depend on the distances
recorded before; some are needed to say it. -/
def Passes (part : Part) (p : Setting) : Prop :=
  ∃ d d', part.resolve p.context d = .passed () d'

theorem Walked.passes {parts : List (Part × Setting)} {d d' : Distances} (h : Walked parts d d')
    {part : Part} {p : Setting} (hm : (part, p) ∈ parts) : Passes part p := by
  induction h with
  | nil => cases hm
  | @cons _ _ _ d d₁ _ hp _ ih =>
    rcases List.mem_cons.1 hm with heq | hm
    · cases heq
      exact ⟨d, d₁, hp⟩
    · exact ih hm

theorem Passes.visits {part part' : Part} {p p' : Setting} (h : Passes part p)
    (hv : Visits part p part' p') : Passes part' p' := by
  induction hv with
  | here => exact h
  | inside hc _ ih =>
    obtain ⟨d, d', hd⟩ := h
    obtain ⟨d₁, hw, -⟩ := Part.walked_of_resolve hd
    exact ih (hw.passes hc)

/-- A `return` stands inside of a function, and one with a value not in an initializer. -/
theorem Passes.returning {keyword : Token} {value : Option Expr} {p : Setting}
    (h : Passes (.stmt (.returning keyword value)) p) :
    p.context.body ≠ .none ∧ (value.isSome → p.context.body ≠ .initializer) := by
  obtain ⟨d, d', hd⟩ := h
  obtain ⟨c, d₁, hs, -⟩ := Walk.bind_passed hd
  cases value with
  | none =>
    rw [Stmt.resolve] at hs
    split at hs
    · cases hs
    · next hbody => exact ⟨hbody, nofun⟩
  | some value =>
    rw [Stmt.resolve] at hs
    split at hs
    · cases hs
    · next hbody =>
      split at hs
      · cases hs
      · next hinit => exact ⟨hbody, fun _ => hinit⟩

end TreeWalk
