import TreeWalk.Proofs.Joining
import TreeWalk.Proofs.LoneExpression

/-!
# A program and what follows it

Tokens that are a program are read in the same way whatever follows them, and what follows them is
read as if it stood alone: its statements, its faults and their places are the same
(`parseItems_program_append`). It may be malformed. Only an `else` at its beginning could be taken
for a part of the program.

The references differ, so statements are compared after `eraseItem`. Where references are given out
from makes no other difference (`Cursor.items_erase`).
-/

namespace TreeWalk

/-- The item without the references of its statement. -/
def eraseItem : Except Rejection Stmt → Except Rejection Stmt
  | .ok s => .ok s.erase
  | .error r => .error r

variable {c : Cursor}

/-! ### References given out from another one on -/

theorem Cursor.rename_references (f : Nat → Nat) (c : Cursor) :
    c.rename (.references f) = c.to c.rest (f c.nextReference) := by
  have htokens : Token.rename (.references f) = id := funext fun t => t.rename_references f
  have hfaults : SyntaxFault.rename (.references f) = id := rfl
  rw [Cursor.rename, htokens, hfaults, List.map_id, List.map_id]
  rfl

theorem Stmt.erase_rename (f : Nat → Nat) (s : Stmt) :
    (s.rename (.references f)).erase = s.erase := by
  rw [← Stmt.rename_erasing, ← Stmt.rename_erasing, Stmt.rename_rename]
  rfl

theorem eraseItem_rename (f : Nat → Nat) (item : Except Rejection Stmt) :
    eraseItem (renameItem (.references f) item) = eraseItem item := by
  cases item with
  | ok s => exact congrArg Except.ok (s.erase_rename f)
  | error r => exact congrArg Except.error (r.rename_references f)

theorem Cursor.items_erase_zero (ts : List Token) (n fuel : Nat) :
    ((c.to ts n).items fuel).1.map eraseItem = ((c.to ts 0).items fuel).1.map eraseItem := by
  have hcounts : (Renaming.references (n + ·)).Counts := fun r => (Nat.add_assoc n r 1).symm
  have hrename : (c.to ts 0).rename (.references (n + ·)) = c.to ts n := rename_references _ _
  rw [← hrename, items_rename hcounts, List.map_map]
  exact List.map_congr_left fun item _ => eraseItem_rename _ item

/-- From whatever reference on, the same items are read. -/
theorem Cursor.items_erase (ts : List Token) (n n' fuel : Nat) :
    ((c.to ts n).items fuel).1.map eraseItem = ((c.to ts n').items fuel).1.map eraseItem := by
  rw [items_erase_zero ts n, items_erase_zero ts n']

/-! ### What follows -/

/-- Declarations are read one by one, and then what follows them. -/
theorem Derives.items_append {ts rest : List Token} {p : List Stmt}
    (d : Derives .declarations false ts p rest) (hc : c.Clean 0)
    (helse : Stops (Token.isKeyword .else_) rest) {fuel : Nat} (hfuel : ts.length ≤ fuel)
    (n n' : Nat) :
    ((c.to ts n).items fuel).1.map eraseItem =
      p.map .ok ++ ((c.to rest n').items rest.length).1.map eraseItem := by
  induction fuel generalizing ts p n with
  | zero =>
    cases d with
    | noDeclaration =>
      rw [Nat.le_zero.1 hfuel]
      rfl
    | nextDeclaration d =>
      have hlen := d.length_lt rfl
      omega
  | succ fuel ih =>
    cases d with
    | noDeclaration =>
      rw [Cursor.items_of_le (c := c.to rest n) (Nat.le_refl _) hfuel]
      exact Cursor.items_erase rest n n' _
    | nextDeclaration d dm =>
      obtain ⟨s, n₁, hnext, rfl⟩ := d.next? (dm.stops_of_declarations helse) hc n
      have hlen := d.length_lt rfl
      rw [Cursor.items, hnext]
      exact congrArg (Except.ok s.erase :: ·) (ih dm (by omega) n₁)

theorem map_eraseStmts (ss : List Stmt) : eraseStmts ss = ss.map Stmt.erase := by
  induction ss with
  | nil => rw [eraseStmts, List.map_nil]
  | cons s ss ih => rw [eraseStmts, ih, List.map_cons]

/-- A program neither hides nor causes anything in what follows it. Its statements are the first
items, and the others are those of what follows by itself, faults included. -/
theorem parseItems_program_append {ts more : List Token} {eof eof' : Token} {n : Nat}
    {ss : List Stmt} (h : Terminated ts eof) (hmore : Terminated more eof')
    (hss : (parseProgram (ts ++ [eof]) n).1 = .ok ss)
    (helse : Stops (Token.isKeyword .else_) more) (n' n'' : Nat) :
    (parseItems (ts ++ more ++ [eof']) n').1.map eraseItem =
      (ss.map Except.ok ++ (parseItems (more ++ [eof']) n'').1).map eraseItem := by
  have hprogram : IsProgram ts (eraseStmts ss) := isProgram_of_parseProgram h hss
  have hall : Terminated (ts ++ more) eof' :=
    ⟨hmore.isEnd, List.forall_mem_append.2 ⟨h.others, hmore.others⟩⟩
  have hclean : (Cursor.start (more ++ [eof']) n'').Clean 0 := clean_start _ _
  have hlen : (ts ++ more).length ≤ (ts ++ more ++ [eof']).length := by simp
  have hitems := (hprogram.extend more).items_append hclean helse hlen n' n''
  have hrest : (Cursor.start (more ++ [eof']) n'').items more.length =
      parseItems (more ++ [eof']) n'' := by
    have hstart : (Cursor.start (more ++ [eof']) n'').rest.length ≤ more.length :=
      Nat.le_of_eq (congrArg List.length (hmore.start n''))
    have hmoreLen : more.length ≤ (more ++ [eof']).length := by simp
    rw [parseItems, Cursor.items_of_le hstart hmoreLen]
  have herase : (eraseStmts ss).map Except.ok = (ss.map Except.ok).map eraseItem := by
    rw [map_eraseStmts, List.map_map, List.map_map]
    rfl
  rw [List.map_append, ← hrest, ← herase, parseItems, hall.start_eq]
  rw [hmore.start_eq] at hitems ⊢
  exact hitems

/-- The tokens of `if (a) return;`. -/
def shortIf : List Token :=
  [⟨.keyword .if_, "if", 1⟩, ⟨.symbol .leftParen, "(", 1⟩, ⟨.identifier, "a", 1⟩,
    ⟨.symbol .rightParen, ")", 1⟩, ⟨.keyword .return_, "return", 1⟩, ⟨.symbol .semicolon, ";", 1⟩]

/-- The tokens of `) b;`. -/
def strayParen : List Token :=
  [⟨.symbol .rightParen, ")", 2⟩, ⟨.identifier, "b", 2⟩, ⟨.symbol .semicolon, ";", 2⟩]

def shortIfTree : Stmt :=
  .conditional (.variable 0 ⟨.identifier, "a", 1⟩)
    (.returning ⟨.keyword .return_, "return", 1⟩ none)
    none

/-- An `if` that still looks for an `else`, before a token that starts no declaration. -/
theorem parseItems_shortIf_append : Terminated shortIf (Token.endOn 1) ∧
    Terminated strayParen (Token.endOn 2) ∧
    (parseProgram (shortIf ++ [Token.endOn 1]) 0).1 = .ok [shortIfTree] ∧
    Stops (Token.isKeyword .else_) strayParen ∧
    (parseItems (shortIf ++ strayParen ++ [Token.endOn 2]) 0).1.map eraseItem =
      ([shortIfTree].map Except.ok ++ (parseItems (strayParen ++ [Token.endOn 2]) 0).1).map
        eraseItem := by
  have h : Terminated shortIf (Token.endOn 1) := ⟨rfl, by decide⟩
  have hmore : Terminated strayParen (Token.endOn 2) := ⟨rfl, by decide⟩
  have hss : (parseProgram (shortIf ++ [Token.endOn 1]) 0).1 = .ok [shortIfTree] := rfl
  have helse : Stops (Token.isKeyword .else_) strayParen := stops_cons rfl
  exact ⟨h, hmore, hss, helse, parseItems_program_append h hmore hss helse 0 0⟩

end TreeWalk
