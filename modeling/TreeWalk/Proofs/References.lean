import TreeWalk.Tree

/-!
# The references in a tree

`references` lists the references of a tree in the order in which they are given out: an assignment
gets its own after those of its value. `Between n refs n'` says that the references of a list are
given out one after the other between `n` and `n'`; such lists can be put together, and a reference
occurs in them once at most.
-/

namespace TreeWalk

mutual

/-- The references of an expression, in the order in which they are given out. -/
def Expr.references : Expr → List Nat
  | .literal _ => []
  | .group inner => inner.references
  | .unary _ operand _ => operand.references
  | .binary left _ right => left.references ++ right.references
  | .logical left _ right => left.references ++ right.references
  | .ternary condition whenTrue whenFalse =>
    condition.references ++ (whenTrue.references ++ whenFalse.references)
  | .variable reference _ => [reference]
  | .assign reference _ value => value.references ++ [reference]
  | .call callee _ arguments => callee.references ++ referencesExprs arguments
  | .array _ elements => referencesExprs elements
  | .index collection _ position => collection.references ++ position.references
  | .get object _ => object.references
  | .set object _ value => object.references ++ value.references
  | .this reference _ => [reference]
  | .lambda function => function.references

def referencesExprs : List Expr → List Nat
  | [] => []
  | e :: rest => e.references ++ referencesExprs rest

def FunctionDecl.references : FunctionDecl → List Nat
  | ⟨_, _, body, _⟩ => referencesStmts body

/-- The references of a statement; those of a condition come first and those between the rounds of
a loop before those of its body, as they are read. -/
def Stmt.references : Stmt → List Nat
  | .block body => referencesStmts body
  | .expression value => value.references
  | .print value => value.references
  | .var bindings => referencesBindings bindings
  | .function decl => decl.references
  | .classDecl _ methods => referencesMethods methods
  | .conditional condition whenTrue none => condition.references ++ whenTrue.references
  | .conditional condition whenTrue (some whenFalse) =>
    condition.references ++ (whenTrue.references ++ whenFalse.references)
  | .loop condition body none => condition.references ++ body.references
  | .loop condition body (some increment) =>
    condition.references ++ (increment.references ++ body.references)
  | .returning _ none => []
  | .returning _ (some value) => value.references
  | .breaking _ => []
  | .continuing _ => []

def referencesStmts : List Stmt → List Nat
  | [] => []
  | s :: rest => s.references ++ referencesStmts rest

def referencesBindings : List (Token × Option Expr) → List Nat
  | [] => []
  | (_, none) :: rest => referencesBindings rest
  | (_, some value) :: rest => value.references ++ referencesBindings rest

def referencesMethods : List FunctionDecl → List Nat
  | [] => []
  | f :: rest => f.references ++ referencesMethods rest

end

/-- The references `refs` are given out in order, from `n` on and before `n'`. -/
structure Between (n : Nat) (refs : List Nat) (n' : Nat) : Prop where
  le : n ≤ n'
  ordered : refs.Pairwise (· < ·)
  bounds : ∀ r ∈ refs, n ≤ r ∧ r < n'

namespace Between

variable {n n₁ n₂ : Nat} {refs refs₁ refs₂ : List Nat}

theorem none (h : n ≤ n₁) : Between n [] n₁ :=
  ⟨h, .nil, by simp⟩

theorem one (n : Nat) : Between n [n] (n + 1) :=
  ⟨Nat.le_succ n, List.pairwise_singleton _ _, by simp⟩

theorem append (h₁ : Between n refs₁ n₁) (h₂ : Between n₁ refs₂ n₂) :
    Between n (refs₁ ++ refs₂) n₂ := by
  refine ⟨Nat.le_trans h₁.le h₂.le, List.pairwise_append.2 ⟨h₁.ordered, h₂.ordered, ?_⟩, ?_⟩
  · intro r hr r' hr'
    exact Nat.lt_of_lt_of_le (h₁.bounds r hr).2 (h₂.bounds r' hr').1
  · intro r hr
    rcases List.mem_append.1 hr with hr | hr
    · exact ⟨(h₁.bounds r hr).1, Nat.lt_of_lt_of_le (h₁.bounds r hr).2 h₂.le⟩
    · exact ⟨Nat.le_trans h₁.le (h₂.bounds r hr).1, (h₂.bounds r hr).2⟩

theorem nodup (h : Between n refs n₁) : refs.Nodup :=
  h.ordered.imp Nat.ne_of_lt

theorem sublist (h : Between n refs n₁) (hs : refs₁.Sublist refs) : Between n refs₁ n₁ :=
  ⟨h.le, h.ordered.sublist hs, fun r hr => h.bounds r (hs.subset hr)⟩

end Between

end TreeWalk
