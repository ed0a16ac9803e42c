import TreeWalk.Proofs.Numerals
import TreeWalk.Proofs.Outlines
import TreeWalk.Proofs.Renaming
import TreeWalk.Proofs.Spelling
import TreeWalk.Tree.Printer

/-!
# Trees read from their outlines

A tree is shown as an outline: a list that starts with a word for the node (`Head`), or a single word.
`Outline.phrase?` reads the tree from the outline, without references and lines, which are not shown.
It is told by the head what the parts are, so parts are read alike wherever they stand; a list of
parameters, which has no head, is read where the head announces it.

A phrase is `Recoverable` if it is read from the outline that it is shown as, unless it has a literal
for a floating-point number, whose text may be that of another. There is one lemma for lists with parts
(`Phrase.Recoverable.node`), one for functions (`Phrase.Recoverable.function`), and each kind of node
is a case of one of them.
-/

namespace TreeWalk

/-! ### Literals -/

mutual

/-- The literals of an expression. -/
def Expr.literals : Expr → List Literal
  | .literal value => [value]
  | .group inner => inner.literals
  | .unary _ operand _ => operand.literals
  | .binary left _ right => left.literals ++ right.literals
  | .logical left _ right => left.literals ++ right.literals
  | .ternary condition whenTrue whenFalse =>
    condition.literals ++ (whenTrue.literals ++ whenFalse.literals)
  | .variable _ _ => []
  | .assign _ _ value => value.literals
  | .call callee _ arguments => callee.literals ++ literalsExprs arguments
  | .array _ elements => literalsExprs elements
  | .index collection _ position => collection.literals ++ position.literals
  | .get object _ => object.literals
  | .set object _ value => object.literals ++ value.literals
  | .this _ _ => []
  | .lambda function => function.literals

def literalsExprs : List Expr → List Literal
  | [] => []
  | e :: rest => e.literals ++ literalsExprs rest

def FunctionDecl.literals : FunctionDecl → List Literal
  | ⟨_, _, body, _⟩ => literalsStmts body

/-- The literals of a statement. -/
def Stmt.literals : Stmt → List Literal
  | .block body => literalsStmts body
  | .expression value => value.literals
  | .print value => value.literals
  | .var bindings => literalsBindings bindings
  | .function decl => decl.literals
  | .classDecl _ methods => literalsMethods methods
  | .conditional condition whenTrue none => condition.literals ++ whenTrue.literals
  | .conditional condition whenTrue (some whenFalse) =>
    condition.literals ++ (whenTrue.literals ++ whenFalse.literals)
  | .loop condition body none => condition.literals ++ body.literals
  | .loop condition body (some increment) =>
    condition.literals ++ (body.literals ++ increment.literals)
  | .returning _ none => []
  | .returning _ (some value) => value.literals
  | .breaking _ => []
  | .continuing _ => []

def literalsStmts : List Stmt → List Literal
  | [] => []
  | s :: rest => s.literals ++ literalsStmts rest

def literalsBindings : List (Token × Option Expr) → List Literal
  | [] => []
  | (_, none) :: rest => literalsBindings rest
  | (_, some value) :: rest => value.literals ++ literalsBindings rest

def literalsMethods : List FunctionDecl → List Literal
  | [] => []
  | f :: rest => f.literals ++ literalsMethods rest

end

/-! ### Heads -/

/-- What a list that starts with a word is shown for, functions apart. -/
inductive Node where
  /-- A unary operator before its operand, or a binary one. -/
  | operator (s : Symbol)
  /-- A unary operator after its operand. -/
  | after (s : Symbol)
  | logical (k : Keyword)
  | group | ternary | assign | call | array | index | get | set
  | expression | print | var | classDecl | conditional | loop | returning | breaking | continuing
  | block
deriving DecidableEq

/-- What a function is shown as. -/
inductive Role where
  | lambda
  | function
  | method
deriving DecidableEq

inductive Head where
  | node (n : Node)
  | function (r : Role)
deriving DecidableEq

namespace Head

def text : Head → String
  | node (.operator s) => String.ofList s.spelling
  | node (.after s) => "post" ++ String.ofList s.spelling
  | node (.logical k) => k.text
  | node .group => "group" | node .ternary => "?" | node .assign => "=" | node .call => "call"
  | node .array => "array" | node .index => "index" | node .get => "." | node .set => ".="
  | node .expression => ";" | node .print => "print" | node .var => "var"
  | node .classDecl => "class" | node .conditional => "if" | node .loop => "while"
  | node .returning => "return" | node .breaking => "break" | node .continuing => "continue"
  | node .block => "block"
  | function .lambda => "lambda" | function .function => "fun" | function .method => "method"

/-- The operators that a tree has. -/
def operators : List Symbol :=
  [.bang, .minus, .plusPlus, .minusMinus, .bangEqual, .equalEqual, .greater, .greaterEqual, .less,
    .lessEqual, .plus, .slash, .star]

def all : List Head :=
  operators.map (fun s => node (.operator s)) ++
    [node (.after .plusPlus), node (.after .minusMinus), node (.logical .or_), node (.logical .and_),
      node .group, node .ternary, node .assign, node .call, node .array, node .index, node .get,
      node .set, node .expression, node .print, node .var, node .classDecl, node .conditional,
      node .loop, node .returning, node .breaking, node .continuing, node .block, function .lambda,
      function .function, function .method]

def ofText? (word : String) : Option Head :=
  all.find? fun h => h.text == word

/-- No two heads are written alike. -/
theorem ofText?_text : ∀ h ∈ all, ofText? h.text = some h := by
  decide

theorem distinct_text : ∀ h ∈ all, Distinct h.text.toList := by
  have hall : ∀ h ∈ all, h.text.toList ≠ [] ∧ h.text.toList.all fun c => !isDelimiter c := by
    decide
  exact fun h hh => .of_all (hall h hh).1 (hall h hh).2

end Head

/-! ### Phrases -/

/-- No reference and no line, since neither is shown. -/
abbrev Renaming.bare : Renaming := .unplaced fun _ => 0

/-- A part of a tree that is shown as an outline. -/
inductive Phrase where
  | expr (e : Expr)
  | stmt (s : Stmt)
  | method (f : FunctionDecl)

namespace Phrase

def text : Phrase → String
  | expr e => e.text
  | stmt s => s.text
  | method f => f.text "method"

def bare : Phrase → Phrase
  | expr e => expr (e.rename .bare)
  | stmt s => stmt (s.rename .bare)
  | method f => method (f.rename .bare)

def literals : Phrase → List Literal
  | expr e => e.literals
  | stmt s => s.literals
  | method f => f.literals

def expr? : Phrase → Option Expr
  | expr e => some e
  | _ => none

def stmt? : Phrase → Option Stmt
  | stmt s => some s
  | _ => none

def method? : Phrase → Option FunctionDecl
  | method f => some f
  | _ => none

/-- A variable with its initial value, shown as a name or as an assignment. -/
def binding (b : Token × Option Expr) : Phrase :=
  match b with
  | (name, none) => expr (.variable 0 name)
  | (name, some value) => expr (.assign 0 name value)

def binding? : Phrase → Option (Token × Option Expr)
  | expr (.variable _ name) => some (name, none)
  | expr (.assign _ name value) => some (name, some value)
  | _ => none

end Phrase

/-! ### Reading -/

def Symbol.token (s : Symbol) : Token :=
  ⟨.symbol s, String.ofList s.spelling, 0⟩

def Keyword.token (k : Keyword) : Token :=
  ⟨.keyword k, k.text, 0⟩

def nameToken (word : String) : Token :=
  ⟨.identifier, word, 0⟩

/-- The node with the parts. -/
def Node.assemble? : Node → List Phrase → Option Phrase
  | .operator s, [.expr e] => some (.expr (.unary s.token e .before))
  | .operator s, [.expr left, .expr right] => some (.expr (.binary left s.token right))
  | .after s, [.expr e] => some (.expr (.unary s.token e .after))
  | .logical k, [.expr left, .expr right] => some (.expr (.logical left k.token right))
  | .group, [.expr e] => some (.expr (.group e))
  | .ternary, [.expr condition, .expr whenTrue, .expr whenFalse] =>
    some (.expr (.ternary condition whenTrue whenFalse))
  | .assign, [.expr (.variable _ name), .expr value] => some (.expr (.assign 0 name value))
  | .call, .expr callee :: arguments =>
    (arguments.mapM Phrase.expr?).map fun es => .expr (.call callee Symbol.rightParen.token es)
  | .array, elements =>
    (elements.mapM Phrase.expr?).map fun es => .expr (.array Symbol.leftBracket.token es)
  | .index, [.expr collection, .expr position] =>
    some (.expr (.index collection Symbol.leftBracket.token position))
  | .get, [.expr object, .expr (.variable _ name)] => some (.expr (.get object name))
  | .set, [.expr object, .expr (.variable _ name), .expr value] =>
    some (.expr (.set object name value))
  | .expression, [.expr value] => some (.stmt (.expression value))
  | .print, [.expr value] => some (.stmt (.print value))
  | .var, bindings => (bindings.mapM Phrase.binding?).map fun bs => .stmt (.var bs)
  | .classDecl, .expr (.variable _ name) :: methods =>
    (methods.mapM Phrase.method?).map fun fs => .stmt (.classDecl name fs)
  | .conditional, [.expr condition, .stmt whenTrue] =>
    some (.stmt (.conditional condition whenTrue none))
  | .conditional, [.expr condition, .stmt whenTrue, .stmt whenFalse] =>
    some (.stmt (.conditional condition whenTrue (some whenFalse)))
  | .loop, [.expr condition, .stmt body] => some (.stmt (.loop condition body none))
  | .loop, [.expr condition, .stmt body, .expr increment] =>
    some (.stmt (.loop condition body (some increment)))
  | .returning, [] => some (.stmt (.returning Keyword.return_.token none))
  | .returning, [.expr value] => some (.stmt (.returning Keyword.return_.token (some value)))
  | .breaking, [] => some (.stmt (.breaking Keyword.break_.token))
  | .continuing, [] => some (.stmt (.continuing Keyword.continue_.token))
  | .block, body => (body.mapM Phrase.stmt?).map fun ss => .stmt (.block ss)
  | _, _ => none

/-- The function with the name, the names of its parameters and the body. -/
def Role.assemble : Role → String → List String → List Stmt → Phrase
  | .lambda, _, names, body =>
    .expr (.lambda ⟨none, names.map nameToken, body, Keyword.fun_.token⟩)
  | .function, name, names, body =>
    .stmt (.function ⟨some (nameToken name), names.map nameToken, body, nameToken name⟩)
  | .method, name, names, body =>
    .method ⟨some (nameToken name), names.map nameToken, body, nameToken name⟩

namespace Outline

/-- The expression that is shown as a single word. -/
def leaf (word : String) : Expr :=
  if word = "nil" then .literal .nil
  else if word = "true" then .literal (.bool true)
  else if word = "false" then .literal (.bool false)
  else if word = "this" then .this 0 Keyword.this_.token
  else match word.toList with
    | '"' :: cs => .literal (.string (String.ofList cs.dropLast))
    | cs =>
      match readInt64? cs with
      | some n => .literal (.int n)
      | none => .variable 0 (nameToken word)

def word? : Outline → Option String
  | word text => some text
  | list _ => none

end Outline

mutual

/-- The phrase that is shown as the outline. -/
def Outline.phrase? : Outline → Option Phrase
  | .word word => some (.expr (Outline.leaf word))
  | .list (.word head :: parts) =>
    match Head.ofText? head with
    | some (.node n) => (phrases? parts).bind n.assemble?
    | some (.function r) =>
      match parts with
      | .word name :: .list names :: body =>
        (names.mapM Outline.word?).bind fun names =>
          (phrases? body).bind fun body => (body.mapM Phrase.stmt?).map (r.assemble name names)
      | _ => none
    | none => none
  | .list _ => none

def phrases? : List Outline → Option (List Phrase)
  | [] => some []
  | o :: rest => o.phrase?.bind fun p => (phrases? rest).map (p :: ·)

end

namespace Phrase

/-- The phrase is shown as an outline from which it is read. -/
def Shown (p : Phrase) : Prop :=
  ∃ o : Outline, o.Legible ∧ o.chars = p.text.toList ∧ o.phrase? = some p.bare

/-- Unless it has a literal for a floating-point number, the phrase is shown as an outline from which
it is read. -/
def Recoverable (p : Phrase) : Prop :=
  (∀ x, .float x ∉ p.literals) → p.Shown

/-- Phrases that are shown behind another, and the closing parenthesis. -/
def behindText : List Phrase → List Char
  | [] => [')']
  | p :: rest => ' ' :: (p.text.toList ++ behindText rest)

theorem shown_parts {ps : List Phrase} (hps : ∀ p ∈ ps, p.Shown) : ∃ os : List Outline,
    areLegible os ∧ behindChars os = behindText ps ∧ phrases? os = some (ps.map bare) := by
  induction ps with
  | nil => exact ⟨[], trivial, rfl, rfl⟩
  | cons p ps ih =>
    obtain ⟨⟨o, hlegible, hchars, hread⟩, hps⟩ := List.forall_mem_cons.1 hps
    obtain ⟨os, hlegibles, hbehind, hreads⟩ := ih hps
    refine ⟨o :: os, ⟨hlegible, hlegibles⟩, ?_, ?_⟩
    · rw [behindChars, behindText, hchars, hbehind]
    · rw [phrases?, hread, hreads]
      rfl

theorem Recoverable.shown_all {ps : List Phrase} {ls : List Literal} (hps : ∀ p ∈ ps, p.Recoverable)
    (hliterals : ∀ p ∈ ps, p.literals ⊆ ls) (hfloat : ∀ x, .float x ∉ ls) : ∀ p ∈ ps, p.Shown :=
  fun p hp => hps p hp fun x hx => hfloat x (hliterals p hp hx)

/-- A node is recoverable if its parts are. -/
theorem Recoverable.node {n : Node} {p : Phrase} (hn : .node n ∈ Head.all) (ps : List Phrase)
    (hps : ∀ q ∈ ps, q.Recoverable) (hliterals : ∀ q ∈ ps, q.literals ⊆ p.literals)
    (htext : p.text.toList = '(' :: ((Head.node n).text.toList ++ behindText ps))
    (hread : n.assemble? (ps.map bare) = some p.bare) : p.Recoverable := by
  intro hfloat
  obtain ⟨os, hlegible, hbehind, hreads⟩ := shown_parts (shown_all hps hliterals hfloat)
  refine ⟨.list (.word (Head.node n).text :: os), ⟨Head.distinct_text _ hn, hlegible⟩, ?_, ?_⟩
  · rw [Outline.chars, Outline.chars, hbehind, htext]
  · rw [Outline.phrase?, Head.ofText?_text _ hn, hreads]
    exact hread

/-! ### Lists of parts -/

section

variable {α β : Type}

theorem toList_parts {part : α → Phrase} {textOf : List α → String} (hnil : textOf [] = "")
    (hcons : ∀ a as, textOf (a :: as) = " " ++ (part a).text ++ textOf as) (as : List α) :
    (textOf as).toList ++ [')'] = behindText (as.map part) := by
  induction as with
  | nil =>
    rw [hnil]
    rfl
  | cons a as ih => simp [hcons, behindText, ← ih]

theorem literals_subset_parts {part : α → Phrase} {literalsOf : List α → List Literal}
    (hcons : ∀ a as, literalsOf (a :: as) = (part a).literals ++ literalsOf as) {as : List α} :
    ∀ p ∈ as.map part, p.literals ⊆ literalsOf as := by
  induction as with
  | nil => exact nofun
  | cons a as ih =>
    rw [hcons, List.map_cons, List.forall_mem_cons]
    exact ⟨List.subset_append_left _ _,
      fun p hp => List.subset_append_of_subset_right _ (ih p hp)⟩

theorem eq_map_of_cons {f : α → β} {mapped : List α → List β} (hnil : mapped [] = [])
    (hcons : ∀ a as, mapped (a :: as) = f a :: mapped as) (as : List α) : mapped as = as.map f := by
  induction as with
  | nil => rw [hnil, List.map_nil]
  | cons a as ih => rw [hcons, ih, List.map_cons]

theorem mapM_map_some {γ : Type} {f : β → Option γ} {g : α → β} {h : α → γ}
    (hfg : ∀ a, f (g a) = some (h a)) (as : List α) : (as.map g).mapM f = some (as.map h) := by
  rw [List.mapM_map, funext hfg (f := f ∘ g)]
  exact List.mapM_pure

theorem mapM_parts {f : Phrase → Option β} {g : α → Phrase} {h : α → β}
    (hread : ∀ a, f (g a).bare = some (h a)) (as : List α) :
    ((as.map g).map bare).mapM f = some (as.map h) := by
  rw [List.map_map]
  exact mapM_map_some hread as

end

/-! ### Functions -/

theorem toList_stmtsText (ss : List Stmt) :
    (stmtsText ss).toList ++ [')'] = behindText (ss.map stmt) :=
  toList_parts rfl (fun _ _ => rfl) ss

theorem behindChars_names (names : List Token) :
    behindChars (names.map fun x => .word x.lexeme) =
      (names.flatMap fun x => ' ' :: x.lexeme.toList) ++ [')'] := by
  induction names with
  | nil => rfl
  | cons name names ih => simp [behindChars, Outline.chars, ih]

theorem intercalate_blank (word : List Char) (words : List (List Char)) :
    [' '].intercalate (word :: words) = word ++ words.flatMap (' ' :: ·) := by
  induction words generalizing word with
  | nil => simp
  | cons word' words ih =>
    rw [List.intercalate_cons_cons, ih]
    simp

theorem chars_parameters (names : List Token) :
    (Outline.list (names.map fun x => .word x.lexeme)).chars = (parametersText names).toList := by
  cases names with
  | nil => decide
  | cons name names =>
    simp [Outline.chars, behindChars_names, parametersText, String.toList_intercalate,
      intercalate_blank, List.flatMap_map]

/-- A function is recoverable if the statements of its body are. -/
theorem Recoverable.function {r : Role} {decl : FunctionDecl} {p : Phrase}
    (hlabel : Distinct decl.label.toList) (hnames : ∀ x ∈ decl.parameters, Distinct x.lexeme.toList)
    (hbody : ∀ s ∈ decl.body, (stmt s).Recoverable)
    (hliterals : ∀ q ∈ decl.body.map stmt, q.literals ⊆ p.literals)
    (htext : p.text = decl.text (Head.function r).text)
    (hread : r.assemble decl.label (decl.parameters.map Token.lexeme)
      (decl.body.map (Stmt.rename .bare)) = p.bare) : p.Recoverable := by
  intro hfloat
  have hhead : Head.function r ∈ Head.all := by cases r <;> decide
  have hshown : ∀ q ∈ decl.body.map stmt, q.Shown :=
    shown_all (List.forall_mem_map.2 hbody) hliterals hfloat
  obtain ⟨os, hlegible, hbehind, hreads⟩ := shown_parts hshown
  let names : List Outline := decl.parameters.map fun x => .word x.lexeme
  have hparameters : ∀ o ∈ names, o.Legible := List.forall_mem_map.2 hnames
  refine ⟨.list (.word (Head.function r).text :: .word decl.label :: .list names :: os), ?_, ?_, ?_⟩
  · exact ⟨Head.distinct_text _ hhead, hlabel, areLegible_iff.2 hparameters, hlegible⟩
  · obtain ⟨name, parameters, body, keyword⟩ := decl
    have hstmts := toList_stmtsText body
    have hchars : (Outline.list names).chars = (parametersText parameters).toList :=
      chars_parameters parameters
    rw [htext, FunctionDecl.text]
    simp [Outline.chars, behindChars, hbehind, hchars, ← hstmts]
  · have hwords : names.mapM Outline.word? = some (decl.parameters.map Token.lexeme) :=
      mapM_map_some (f := Outline.word?) (fun _ => rfl) decl.parameters
    rw [Outline.phrase?, Head.ofText?_text _ hhead]
    have hstmts : ((decl.body.map stmt).map bare).mapM stmt? =
        some (decl.body.map (Stmt.rename .bare)) := mapM_parts (f := stmt?) (fun _ => rfl) decl.body
    simp only [hwords, hreads, hstmts, Option.bind_some, Option.map_some, hread]

end Phrase

end TreeWalk
