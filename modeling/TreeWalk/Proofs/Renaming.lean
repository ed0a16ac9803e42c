import TreeWalk.Proofs.Grammar
import TreeWalk.Proofs.References

/-!
# Renaming references and lines

A renaming gives every reference of a tree another number and moves every token to another line. A
tree is its form without references (`erase`) and the list of its references: two trees that agree
in both are equal (`eq_of_eraseStmts`), so a renaming is known by what it does to the references
that occur.
-/

namespace TreeWalk

/-- Another number for each reference and another line for each line. Line zero, which stands for no
line, stays. -/
structure Renaming where
  reference : Nat → Nat
  line : Nat → Nat
  line_zero : line 0 = 0

namespace Renaming

/-- Renames references and keeps lines. -/
def references (f : Nat → Nat) : Renaming := ⟨f, id, rfl⟩

/-- Renames references by `f` and blots out all lines. -/
def unplaced (f : Nat → Nat) : Renaming := ⟨f, fun _ => 0, rfl⟩

/-- First `ρ`, then `σ`. -/
def trans (ρ σ : Renaming) : Renaming :=
  ⟨σ.reference ∘ ρ.reference, σ.line ∘ ρ.line, by simp [ρ.line_zero, σ.line_zero]⟩

@[simp]
theorem references_reference (f : Nat → Nat) : (references f).reference = f := rfl

end Renaming

/-! ### Tokens and trees -/

namespace Token

def rename (ρ : Renaming) (t : Token) : Token :=
  { t with line := ρ.line t.line }

variable (ρ : Renaming) (t : Token)

@[simp]
theorem rename_kind : (t.rename ρ).kind = t.kind := rfl

@[simp]
theorem rename_lexeme : (t.rename ρ).lexeme = t.lexeme := rfl

@[simp]
theorem isSymbol_rename (s : Symbol) : (t.rename ρ).isSymbol s = t.isSymbol s := rfl

@[simp]
theorem rename_references (f : Nat → Nat) : t.rename (.references f) = t := rfl

end Token

mutual

def Expr.rename (ρ : Renaming) : Expr → Expr
  | .literal value => .literal value
  | .group inner => .group (inner.rename ρ)
  | .unary operator operand fixity => .unary (operator.rename ρ) (operand.rename ρ) fixity
  | .binary left operator right => .binary (left.rename ρ) (operator.rename ρ) (right.rename ρ)
  | .logical left operator right => .logical (left.rename ρ) (operator.rename ρ) (right.rename ρ)
  | .ternary condition whenTrue whenFalse =>
    .ternary (condition.rename ρ) (whenTrue.rename ρ) (whenFalse.rename ρ)
  | .variable reference name => .variable (ρ.reference reference) (name.rename ρ)
  | .assign reference name value =>
    .assign (ρ.reference reference) (name.rename ρ) (value.rename ρ)
  | .call callee paren arguments =>
    .call (callee.rename ρ) (paren.rename ρ) (renameExprs ρ arguments)
  | .array bracket elements => .array (bracket.rename ρ) (renameExprs ρ elements)
  | .index collection bracket position =>
    .index (collection.rename ρ) (bracket.rename ρ) (position.rename ρ)
  | .get object name => .get (object.rename ρ) (name.rename ρ)
  | .set object name value => .set (object.rename ρ) (name.rename ρ) (value.rename ρ)
  | .this reference keyword => .this (ρ.reference reference) (keyword.rename ρ)
  | .lambda function => .lambda (function.rename ρ)

def renameExprs (ρ : Renaming) : List Expr → List Expr
  | [] => []
  | e :: rest => e.rename ρ :: renameExprs ρ rest

def FunctionDecl.rename (ρ : Renaming) : FunctionDecl → FunctionDecl
  | ⟨name, parameters, body, keyword⟩ =>
    ⟨name.map (·.rename ρ), parameters.map (·.rename ρ), renameStmts ρ body, keyword.rename ρ⟩

def Stmt.rename (ρ : Renaming) : Stmt → Stmt
  | .block body => .block (renameStmts ρ body)
  | .expression value => .expression (value.rename ρ)
  | .print value => .print (value.rename ρ)
  | .var bindings => .var (renameBindings ρ bindings)
  | .function decl => .function (decl.rename ρ)
  | .classDecl name methods => .classDecl (name.rename ρ) (renameMethods ρ methods)
  | .conditional condition whenTrue none =>
    .conditional (condition.rename ρ) (whenTrue.rename ρ) none
  | .conditional condition whenTrue (some whenFalse) =>
    .conditional (condition.rename ρ) (whenTrue.rename ρ) (some (whenFalse.rename ρ))
  | .loop condition body none => .loop (condition.rename ρ) (body.rename ρ) none
  | .loop condition body (some increment) =>
    .loop (condition.rename ρ) (body.rename ρ) (some (increment.rename ρ))
  | .returning keyword none => .returning (keyword.rename ρ) none
  | .returning keyword (some value) => .returning (keyword.rename ρ) (some (value.rename ρ))
  | .breaking keyword => .breaking (keyword.rename ρ)
  | .continuing keyword => .continuing (keyword.rename ρ)

def renameStmts (ρ : Renaming) : List Stmt → List Stmt
  | [] => []
  | s :: rest => s.rename ρ :: renameStmts ρ rest

def renameBindings (ρ : Renaming) : List (Token × Option Expr) → List (Token × Option Expr)
  | [] => []
  | (name, none) :: rest => (name.rename ρ, none) :: renameBindings ρ rest
  | (name, some value) :: rest => (name.rename ρ, some (value.rename ρ)) :: renameBindings ρ rest

def renameMethods (ρ : Renaming) : List FunctionDecl → List FunctionDecl
  | [] => []
  | f :: rest => f.rename ρ :: renameMethods ρ rest

end

/-! ### Two renamings -/

theorem Token.rename_rename (ρ σ : Renaming) (t : Token) :
    (t.rename ρ).rename σ = t.rename (ρ.trans σ) := rfl

mutual

theorem Expr.rename_rename (ρ σ : Renaming) :
    (e : Expr) → (e.rename ρ).rename σ = e.rename (ρ.trans σ)
  | .literal _ | .variable .. | .this .. => rfl
  | .group inner => by simp only [Expr.rename, inner.rename_rename ρ σ]
  | .unary _ operand _ => by
    simp only [Expr.rename, operand.rename_rename ρ σ, Token.rename_rename]
  | .binary left _ right | .logical left _ right => by
    simp only [Expr.rename, left.rename_rename ρ σ, right.rename_rename ρ σ, Token.rename_rename]
  | .ternary condition whenTrue whenFalse => by
    simp only [Expr.rename, condition.rename_rename ρ σ, whenTrue.rename_rename ρ σ,
      whenFalse.rename_rename ρ σ]
  | .assign _ _ value => by
    simp only [Expr.rename, value.rename_rename ρ σ, Token.rename_rename, Renaming.trans,
      Function.comp]
  | .call callee _ arguments => by
    simp only [Expr.rename, callee.rename_rename ρ σ, renameExprs_renameExprs ρ σ arguments,
      Token.rename_rename]
  | .array _ elements => by
    simp only [Expr.rename, renameExprs_renameExprs ρ σ elements, Token.rename_rename]
  | .index collection _ position => by
    simp only [Expr.rename, collection.rename_rename ρ σ, position.rename_rename ρ σ,
      Token.rename_rename]
  | .get object _ => by
    simp only [Expr.rename, object.rename_rename ρ σ, Token.rename_rename]
  | .set object _ value => by
    simp only [Expr.rename, object.rename_rename ρ σ, value.rename_rename ρ σ,
      Token.rename_rename]
  | .lambda function => by simp only [Expr.rename, function.rename_rename ρ σ]

theorem renameExprs_renameExprs (ρ σ : Renaming) :
    (es : List Expr) → renameExprs σ (renameExprs ρ es) = renameExprs (ρ.trans σ) es
  | [] => rfl
  | e :: rest => by
    simp only [renameExprs, e.rename_rename ρ σ, renameExprs_renameExprs ρ σ rest]

theorem FunctionDecl.rename_rename (ρ σ : Renaming) :
    (f : FunctionDecl) → (f.rename ρ).rename σ = f.rename (ρ.trans σ)
  | ⟨name, parameters, body, _⟩ => by
    simp only [FunctionDecl.rename, renameStmts_renameStmts ρ σ body, Token.rename_rename,
      List.map_map, Option.map_map]
    rfl

theorem Stmt.rename_rename (ρ σ : Renaming) :
    (s : Stmt) → (s.rename ρ).rename σ = s.rename (ρ.trans σ)
  | .block body => by simp only [Stmt.rename, renameStmts_renameStmts ρ σ body]
  | .expression value | .print value => by simp only [Stmt.rename, value.rename_rename ρ σ]
  | .var bindings => by simp only [Stmt.rename, renameBindings_renameBindings ρ σ bindings]
  | .function decl => by simp only [Stmt.rename, decl.rename_rename ρ σ]
  | .classDecl _ methods => by
    simp only [Stmt.rename, renameMethods_renameMethods ρ σ methods, Token.rename_rename]
  | .conditional condition whenTrue none => by
    simp only [Stmt.rename, condition.rename_rename ρ σ, whenTrue.rename_rename ρ σ]
  | .conditional condition whenTrue (some whenFalse) => by
    simp only [Stmt.rename, condition.rename_rename ρ σ, whenTrue.rename_rename ρ σ,
      whenFalse.rename_rename ρ σ]
  | .loop condition body none => by
    simp only [Stmt.rename, condition.rename_rename ρ σ, body.rename_rename ρ σ]
  | .loop condition body (some increment) => by
    simp only [Stmt.rename, condition.rename_rename ρ σ, body.rename_rename ρ σ,
      increment.rename_rename ρ σ]
  | .returning _ (some value) => by
    simp only [Stmt.rename, value.rename_rename ρ σ, Token.rename_rename]
  | .returning _ none | .breaking _ | .continuing _ => rfl

theorem renameStmts_renameStmts (ρ σ : Renaming) :
    (ss : List Stmt) → renameStmts σ (renameStmts ρ ss) = renameStmts (ρ.trans σ) ss
  | [] => rfl
  | s :: rest => by
    simp only [renameStmts, s.rename_rename ρ σ, renameStmts_renameStmts ρ σ rest]

theorem renameBindings_renameBindings (ρ σ : Renaming) :
    (bs : List (Token × Option Expr)) →
      renameBindings σ (renameBindings ρ bs) = renameBindings (ρ.trans σ) bs
  | [] => rfl
  | (_, none) :: rest => by
    simp only [renameBindings, renameBindings_renameBindings ρ σ rest, Token.rename_rename]
  | (_, some value) :: rest => by
    simp only [renameBindings, value.rename_rename ρ σ, renameBindings_renameBindings ρ σ rest,
      Token.rename_rename]

theorem renameMethods_renameMethods (ρ σ : Renaming) :
    (fs : List FunctionDecl) → renameMethods σ (renameMethods ρ fs) = renameMethods (ρ.trans σ) fs
  | [] => rfl
  | f :: rest => by
    simp only [renameMethods, f.rename_rename ρ σ, renameMethods_renameMethods ρ σ rest]

end

/-! ### The references of a renamed tree -/

mutual

theorem Expr.references_rename (ρ : Renaming) :
    (e : Expr) → (e.rename ρ).references = e.references.map ρ.reference
  | .literal _ | .variable .. | .this .. => rfl
  | .group inner => inner.references_rename ρ
  | .unary _ operand _ => operand.references_rename ρ
  | .binary left _ right | .logical left _ right | .index left _ right | .set left _ right => by
    simp only [Expr.rename, Expr.references, left.references_rename ρ, right.references_rename ρ,
      List.map_append]
  | .ternary condition whenTrue whenFalse => by
    simp only [Expr.rename, Expr.references, condition.references_rename ρ,
      whenTrue.references_rename ρ, whenFalse.references_rename ρ, List.map_append]
  | .assign _ _ value => by
    simp only [Expr.rename, Expr.references, value.references_rename ρ, List.map_append,
      List.map_cons, List.map_nil]
  | .call callee _ arguments => by
    simp only [Expr.rename, Expr.references, callee.references_rename ρ,
      referencesExprs_rename ρ arguments, List.map_append]
  | .array _ elements => referencesExprs_rename ρ elements
  | .get object _ => object.references_rename ρ
  | .lambda function => function.references_rename ρ

theorem referencesExprs_rename (ρ : Renaming) :
    (es : List Expr) → referencesExprs (renameExprs ρ es) = (referencesExprs es).map ρ.reference
  | [] => rfl
  | e :: rest => by
    simp only [renameExprs, referencesExprs, e.references_rename ρ, referencesExprs_rename ρ rest,
      List.map_append]

theorem FunctionDecl.references_rename (ρ : Renaming) :
    (f : FunctionDecl) → (f.rename ρ).references = f.references.map ρ.reference
  | ⟨_, _, body, _⟩ => referencesStmts_rename ρ body

theorem Stmt.references_rename (ρ : Renaming) :
    (s : Stmt) → (s.rename ρ).references = s.references.map ρ.reference
  | .block body => referencesStmts_rename ρ body
  | .expression value => value.references_rename ρ
  | .print value => value.references_rename ρ
  | .var bindings => referencesBindings_rename ρ bindings
  | .function decl => decl.references_rename ρ
  | .classDecl _ methods => referencesMethods_rename ρ methods
  | .conditional condition whenTrue none => by
    simp only [Stmt.rename, Stmt.references, condition.references_rename ρ,
      whenTrue.references_rename ρ, List.map_append]
  | .conditional condition whenTrue (some whenFalse) => by
    simp only [Stmt.rename, Stmt.references, condition.references_rename ρ,
      whenTrue.references_rename ρ, whenFalse.references_rename ρ, List.map_append]
  | .loop condition body none => by
    simp only [Stmt.rename, Stmt.references, condition.references_rename ρ,
      body.references_rename ρ, List.map_append]
  | .loop condition body (some increment) => by
    simp only [Stmt.rename, Stmt.references, condition.references_rename ρ,
      body.references_rename ρ, increment.references_rename ρ, List.map_append]
  | .returning _ (some value) => value.references_rename ρ
  | .returning _ none | .breaking _ | .continuing _ => rfl

theorem referencesStmts_rename (ρ : Renaming) :
    (ss : List Stmt) → referencesStmts (renameStmts ρ ss) = (referencesStmts ss).map ρ.reference
  | [] => rfl
  | s :: rest => by
    simp only [renameStmts, referencesStmts, s.references_rename ρ, referencesStmts_rename ρ rest,
      List.map_append]

theorem referencesBindings_rename (ρ : Renaming) :
    (bs : List (Token × Option Expr)) →
      referencesBindings (renameBindings ρ bs) = (referencesBindings bs).map ρ.reference
  | [] => rfl
  | (_, none) :: rest => referencesBindings_rename ρ rest
  | (_, some value) :: rest => by
    simp only [renameBindings, referencesBindings, value.references_rename ρ,
      referencesBindings_rename ρ rest, List.map_append]

theorem referencesMethods_rename (ρ : Renaming) :
    (fs : List FunctionDecl) →
      referencesMethods (renameMethods ρ fs) = (referencesMethods fs).map ρ.reference
  | [] => rfl
  | f :: rest => by
    simp only [renameMethods, referencesMethods, f.references_rename ρ,
      referencesMethods_rename ρ rest, List.map_append]

end

/-! ### A tree is its form and its references -/

mutual

/-- Gives a tree the references of a list, in order; the rest of the list is left over. -/
def Expr.relabel : Expr → List Nat → Expr × List Nat
  | .literal value, l => (.literal value, l)
  | .group inner, l =>
    let (inner, l) := inner.relabel l
    (.group inner, l)
  | .unary operator operand fixity, l =>
    let (operand, l) := operand.relabel l
    (.unary operator operand fixity, l)
  | .binary left operator right, l =>
    let (left, l) := left.relabel l
    let (right, l) := right.relabel l
    (.binary left operator right, l)
  | .logical left operator right, l =>
    let (left, l) := left.relabel l
    let (right, l) := right.relabel l
    (.logical left operator right, l)
  | .ternary condition whenTrue whenFalse, l =>
    let (condition, l) := condition.relabel l
    let (whenTrue, l) := whenTrue.relabel l
    let (whenFalse, l) := whenFalse.relabel l
    (.ternary condition whenTrue whenFalse, l)
  | .variable reference name, l => (.variable (l.headD reference) name, l.tail)
  | .assign reference name value, l =>
    let (value, l) := value.relabel l
    (.assign (l.headD reference) name value, l.tail)
  | .call callee paren arguments, l =>
    let (callee, l) := callee.relabel l
    let (arguments, l) := relabelExprs arguments l
    (.call callee paren arguments, l)
  | .array bracket elements, l =>
    let (elements, l) := relabelExprs elements l
    (.array bracket elements, l)
  | .index collection bracket position, l =>
    let (collection, l) := collection.relabel l
    let (position, l) := position.relabel l
    (.index collection bracket position, l)
  | .get object name, l =>
    let (object, l) := object.relabel l
    (.get object name, l)
  | .set object name value, l =>
    let (object, l) := object.relabel l
    let (value, l) := value.relabel l
    (.set object name value, l)
  | .this reference keyword, l => (.this (l.headD reference) keyword, l.tail)
  | .lambda function, l =>
    let (function, l) := function.relabel l
    (.lambda function, l)

def relabelExprs : List Expr → List Nat → List Expr × List Nat
  | [], l => ([], l)
  | e :: rest, l =>
    let (e, l) := e.relabel l
    let (rest, l) := relabelExprs rest l
    (e :: rest, l)

def FunctionDecl.relabel : FunctionDecl → List Nat → FunctionDecl × List Nat
  | ⟨name, parameters, body, keyword⟩, l =>
    let (body, l) := relabelStmts body l
    (⟨name, parameters, body, keyword⟩, l)

def Stmt.relabel : Stmt → List Nat → Stmt × List Nat
  | .block body, l =>
    let (body, l) := relabelStmts body l
    (.block body, l)
  | .expression value, l =>
    let (value, l) := value.relabel l
    (.expression value, l)
  | .print value, l =>
    let (value, l) := value.relabel l
    (.print value, l)
  | .var bindings, l =>
    let (bindings, l) := relabelBindings bindings l
    (.var bindings, l)
  | .function decl, l =>
    let (decl, l) := decl.relabel l
    (.function decl, l)
  | .classDecl name methods, l =>
    let (methods, l) := relabelMethods methods l
    (.classDecl name methods, l)
  | .conditional condition whenTrue none, l =>
    let (condition, l) := condition.relabel l
    let (whenTrue, l) := whenTrue.relabel l
    (.conditional condition whenTrue none, l)
  | .conditional condition whenTrue (some whenFalse), l =>
    let (condition, l) := condition.relabel l
    let (whenTrue, l) := whenTrue.relabel l
    let (whenFalse, l) := whenFalse.relabel l
    (.conditional condition whenTrue (some whenFalse), l)
  | .loop condition body none, l =>
    let (condition, l) := condition.relabel l
    let (body, l) := body.relabel l
    (.loop condition body none, l)
  | .loop condition body (some increment), l =>
    let (condition, l) := condition.relabel l
    let (increment, l) := increment.relabel l
    let (body, l) := body.relabel l
    (.loop condition body (some increment), l)
  | .returning keyword none, l => (.returning keyword none, l)
  | .returning keyword (some value), l =>
    let (value, l) := value.relabel l
    (.returning keyword (some value), l)
  | .breaking keyword, l => (.breaking keyword, l)
  | .continuing keyword, l => (.continuing keyword, l)

def relabelStmts : List Stmt → List Nat → List Stmt × List Nat
  | [], l => ([], l)
  | s :: rest, l =>
    let (s, l) := s.relabel l
    let (rest, l) := relabelStmts rest l
    (s :: rest, l)

def relabelBindings : List (Token × Option Expr) → List Nat →
    List (Token × Option Expr) × List Nat
  | [], l => ([], l)
  | (name, none) :: rest, l =>
    let (rest, l) := relabelBindings rest l
    ((name, none) :: rest, l)
  | (name, some value) :: rest, l =>
    let (value, l) := value.relabel l
    let (rest, l) := relabelBindings rest l
    ((name, some value) :: rest, l)

def relabelMethods : List FunctionDecl → List Nat → List FunctionDecl × List Nat
  | [], l => ([], l)
  | f :: rest, l =>
    let (f, l) := f.relabel l
    let (rest, l) := relabelMethods rest l
    (f :: rest, l)

end

mutual

theorem Expr.relabel_erase (l : List Nat) :
    (e : Expr) → e.erase.relabel (e.references ++ l) = (e, l)
  | .literal _ | .variable .. | .this .. => rfl
  | .group inner => by simp only [Expr.erase, Expr.relabel, Expr.references, inner.relabel_erase]
  | .unary _ operand _ => by
    simp only [Expr.erase, Expr.relabel, Expr.references, operand.relabel_erase]
  | .binary left _ right | .logical left _ right | .index left _ right | .set left _ right => by
    simp only [Expr.erase, Expr.relabel, Expr.references, List.append_assoc, left.relabel_erase,
      right.relabel_erase]
  | .ternary condition whenTrue whenFalse => by
    simp only [Expr.erase, Expr.relabel, Expr.references, List.append_assoc,
      condition.relabel_erase, whenTrue.relabel_erase, whenFalse.relabel_erase]
  | .assign _ _ value => by
    simp only [Expr.erase, Expr.relabel, Expr.references, List.append_assoc, value.relabel_erase]
    rfl
  | .call callee _ arguments => by
    simp only [Expr.erase, Expr.relabel, Expr.references, List.append_assoc, callee.relabel_erase,
      relabelExprs_erase]
  | .array _ elements => by
    simp only [Expr.erase, Expr.relabel, Expr.references, relabelExprs_erase]
  | .get object _ => by simp only [Expr.erase, Expr.relabel, Expr.references, object.relabel_erase]
  | .lambda function => by
    simp only [Expr.erase, Expr.relabel, Expr.references, function.relabel_erase]

theorem relabelExprs_erase (l : List Nat) :
    (es : List Expr) → relabelExprs (eraseExprs es) (referencesExprs es ++ l) = (es, l)
  | [] => rfl
  | e :: rest => by
    simp only [eraseExprs, relabelExprs, referencesExprs, List.append_assoc, e.relabel_erase,
      relabelExprs_erase]

theorem FunctionDecl.relabel_erase (l : List Nat) :
    (f : FunctionDecl) → f.erase.relabel (f.references ++ l) = (f, l)
  | ⟨_, _, body, _⟩ => by
    simp only [FunctionDecl.erase, FunctionDecl.relabel, FunctionDecl.references,
      relabelStmts_erase]

theorem Stmt.relabel_erase (l : List Nat) :
    (s : Stmt) → s.erase.relabel (s.references ++ l) = (s, l)
  | .block body => by simp only [Stmt.erase, Stmt.relabel, Stmt.references, relabelStmts_erase]
  | .expression value | .print value | .returning _ (some value) => by
    simp only [Stmt.erase, Stmt.relabel, Stmt.references, value.relabel_erase]
  | .var bindings => by
    simp only [Stmt.erase, Stmt.relabel, Stmt.references, relabelBindings_erase]
  | .function decl => by simp only [Stmt.erase, Stmt.relabel, Stmt.references, decl.relabel_erase]
  | .classDecl _ methods => by
    simp only [Stmt.erase, Stmt.relabel, Stmt.references, relabelMethods_erase]
  | .conditional condition whenTrue none => by
    simp only [Stmt.erase, Stmt.relabel, Stmt.references, List.append_assoc,
      condition.relabel_erase, whenTrue.relabel_erase]
  | .conditional condition whenTrue (some whenFalse) => by
    simp only [Stmt.erase, Stmt.relabel, Stmt.references, List.append_assoc,
      condition.relabel_erase, whenTrue.relabel_erase, whenFalse.relabel_erase]
  | .loop condition body none => by
    simp only [Stmt.erase, Stmt.relabel, Stmt.references, List.append_assoc,
      condition.relabel_erase, body.relabel_erase]
  | .loop condition body (some increment) => by
    simp only [Stmt.erase, Stmt.relabel, Stmt.references, List.append_assoc,
      condition.relabel_erase, increment.relabel_erase, body.relabel_erase]
  | .returning _ none | .breaking _ | .continuing _ => rfl

theorem relabelStmts_erase (l : List Nat) :
    (ss : List Stmt) → relabelStmts (eraseStmts ss) (referencesStmts ss ++ l) = (ss, l)
  | [] => rfl
  | s :: rest => by
    simp only [eraseStmts, relabelStmts, referencesStmts, List.append_assoc, s.relabel_erase,
      relabelStmts_erase]

theorem relabelBindings_erase (l : List Nat) : (bs : List (Token × Option Expr)) →
    relabelBindings (eraseBindings bs) (referencesBindings bs ++ l) = (bs, l)
  | [] => rfl
  | (_, none) :: rest => by
    simp only [eraseBindings, relabelBindings, referencesBindings, relabelBindings_erase]
  | (_, some value) :: rest => by
    simp only [eraseBindings, relabelBindings, referencesBindings, List.append_assoc,
      value.relabel_erase, relabelBindings_erase]

theorem relabelMethods_erase (l : List Nat) : (fs : List FunctionDecl) →
    relabelMethods (eraseMethods fs) (referencesMethods fs ++ l) = (fs, l)
  | [] => rfl
  | f :: rest => by
    simp only [eraseMethods, relabelMethods, referencesMethods, List.append_assoc,
      f.relabel_erase, relabelMethods_erase]

end

theorem eq_of_eraseStmts {ss ss' : List Stmt} (h : eraseStmts ss = eraseStmts ss')
    (hr : referencesStmts ss = referencesStmts ss') : ss = ss' := by
  have hss := relabelStmts_erase [] ss
  rw [h, hr, relabelStmts_erase] at hss
  exact (congrArg Prod.fst hss).symm

/-! ### Erasing is renaming -/

/-- Every reference becomes zero. -/
abbrev Renaming.erasing : Renaming := .references fun _ => 0

mutual

theorem Expr.rename_erasing : (e : Expr) → e.rename .erasing = e.erase
  | .literal _ | .variable .. | .this .. => rfl
  | .group inner => by simp only [Expr.rename, Expr.erase, inner.rename_erasing]
  | .unary _ operand _ => by
    simp only [Expr.rename, Expr.erase, operand.rename_erasing, Token.rename_references]
  | .binary left _ right | .logical left _ right | .index left _ right | .set left _ right => by
    simp only [Expr.rename, Expr.erase, left.rename_erasing, right.rename_erasing,
      Token.rename_references]
  | .ternary condition whenTrue whenFalse => by
    simp only [Expr.rename, Expr.erase, condition.rename_erasing, whenTrue.rename_erasing,
      whenFalse.rename_erasing]
  | .assign _ _ value => by
    simp only [Expr.rename, Expr.erase, value.rename_erasing, Token.rename_references]
    rfl
  | .call callee _ arguments => by
    simp only [Expr.rename, Expr.erase, callee.rename_erasing, renameExprs_erasing arguments,
      Token.rename_references]
  | .array _ elements => by
    simp only [Expr.rename, Expr.erase, renameExprs_erasing elements, Token.rename_references]
  | .get object _ => by
    simp only [Expr.rename, Expr.erase, object.rename_erasing, Token.rename_references]
  | .lambda function => by simp only [Expr.rename, Expr.erase, function.rename_erasing]

theorem renameExprs_erasing : (es : List Expr) → renameExprs .erasing es = eraseExprs es
  | [] => rfl
  | e :: rest => by
    simp only [renameExprs, eraseExprs, e.rename_erasing, renameExprs_erasing rest]

theorem FunctionDecl.rename_erasing : (f : FunctionDecl) → f.rename .erasing = f.erase
  | ⟨name, parameters, body, _⟩ => by
    simp only [FunctionDecl.rename, FunctionDecl.erase, renameStmts_erasing body,
      Token.rename_references, Option.map_id', List.map_id']

theorem Stmt.rename_erasing : (s : Stmt) → s.rename .erasing = s.erase
  | .block body => by simp only [Stmt.rename, Stmt.erase, renameStmts_erasing body]
  | .expression value | .print value => by
    simp only [Stmt.rename, Stmt.erase, value.rename_erasing]
  | .var bindings => by simp only [Stmt.rename, Stmt.erase, renameBindings_erasing bindings]
  | .function decl => by simp only [Stmt.rename, Stmt.erase, decl.rename_erasing]
  | .classDecl _ methods => by
    simp only [Stmt.rename, Stmt.erase, renameMethods_erasing methods, Token.rename_references]
  | .conditional condition whenTrue none => by
    simp only [Stmt.rename, Stmt.erase, condition.rename_erasing, whenTrue.rename_erasing]
  | .conditional condition whenTrue (some whenFalse) => by
    simp only [Stmt.rename, Stmt.erase, condition.rename_erasing, whenTrue.rename_erasing,
      whenFalse.rename_erasing]
  | .loop condition body none => by
    simp only [Stmt.rename, Stmt.erase, condition.rename_erasing, body.rename_erasing]
  | .loop condition body (some increment) => by
    simp only [Stmt.rename, Stmt.erase, condition.rename_erasing, body.rename_erasing,
      increment.rename_erasing]
  | .returning _ (some value) => by
    simp only [Stmt.rename, Stmt.erase, value.rename_erasing, Token.rename_references]
  | .returning _ none | .breaking _ | .continuing _ => rfl

theorem renameStmts_erasing : (ss : List Stmt) → renameStmts .erasing ss = eraseStmts ss
  | [] => rfl
  | s :: rest => by
    simp only [renameStmts, eraseStmts, s.rename_erasing, renameStmts_erasing rest]

theorem renameBindings_erasing :
    (bs : List (Token × Option Expr)) → renameBindings .erasing bs = eraseBindings bs
  | [] => rfl
  | (_, none) :: rest => by
    simp only [renameBindings, eraseBindings, renameBindings_erasing rest, Token.rename_references]
  | (_, some value) :: rest => by
    simp only [renameBindings, eraseBindings, value.rename_erasing, renameBindings_erasing rest,
      Token.rename_references]

theorem renameMethods_erasing :
    (fs : List FunctionDecl) → renameMethods .erasing fs = eraseMethods fs
  | [] => rfl
  | f :: rest => by
    simp only [renameMethods, eraseMethods, f.rename_erasing, renameMethods_erasing rest]

end

/-! ### Renamings that agree where it matters -/

theorem Renaming.trans_erasing {ρ σ : Renaming} (h : ρ.line = σ.line) :
    ρ.trans .erasing = σ.trans .erasing := by
  simp only [Renaming.trans, h]
  rfl

theorem renameStmts_congr {ρ σ : Renaming} {ss : List Stmt} (hline : ρ.line = σ.line)
    (h : ∀ r ∈ referencesStmts ss, ρ.reference r = σ.reference r) :
    renameStmts ρ ss = renameStmts σ ss := by
  apply eq_of_eraseStmts
  · rw [← renameStmts_erasing, ← renameStmts_erasing, renameStmts_renameStmts,
      renameStmts_renameStmts, Renaming.trans_erasing hline]
  · rw [referencesStmts_rename, referencesStmts_rename]
    exact List.map_congr_left h

end TreeWalk
