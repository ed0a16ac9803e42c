import TreeWalk.Proofs.LoneExpression
import TreeWalk.Proofs.Yielding

/-!
# The text of a tree determines it

The text of a tree without floating-point numbers belongs to no other tree (`text_determines_tree`):
two trees that were read from sources and are shown alike differ only in their references and in the
lines of their tokens. Each of them is read from its own outline, as its tokens are faithful, and there
is only one outline with a given text.
-/

namespace TreeWalk

/-! ### Phrases that are shown alike -/

namespace Phrase

variable {p q : Phrase}

theorem Shown.bare_eq (hp : p.Shown) (hq : q.Shown) (htext : p.text = q.text) : p.bare = q.bare := by
  obtain ⟨o, ho, hchars, hread⟩ := hp
  obtain ⟨o', ho', hchars', hread'⟩ := hq
  have hsame : o = o' := Outline.eq_of_chars_eq ho ho' (by rw [hchars, hchars', htext])
  rw [hsame, hread'] at hread
  exact (Option.some.inj hread).symm

theorem Recoverable.bare_eq (hp : p.Recoverable) (hq : q.Recoverable)
    (hfloat : ∀ x, .float x ∉ p.literals) (hfloat' : ∀ x, .float x ∉ q.literals)
    (htext : p.text = q.text) : p.bare = q.bare :=
  (hp hfloat).bare_eq (hq hfloat') htext

end Phrase

/-! ### Trees that are read from a source -/

theorem Lexer.faithful_of_tokens {source : List UInt8} {ts : List Token} (h : tokens source = .ok ts)
    (n : Nat) : ∀ t ∈ (Cursor.start ts n).rest, t.Faithful := by
  obtain ⟨ts', rfl, hend⟩ := terminated_tokens h
  rw [hend.start n]
  exact fun t ht => (readable_of_tokens h t ht).faithful

namespace Cursor

variable {c c' : Cursor} {item : Except Rejection Stmt}

/-- An item of faithful tokens is recoverable, also behind one with a fault. -/
theorem recoverable_of_next? (hc : ∀ t ∈ c.rest, t.Faithful) (h : c.next? = some (item, c')) :
    (∀ s, item = .ok s → (Phrase.stmt s).Recoverable) ∧ ∀ t ∈ c'.rest, t.Faithful := by
  have hmeets := (Production.allYield c.fuel).declaration c hc
  obtain ⟨-, ⟨s, c₁, hdone, rfl, hitem⟩ | ⟨fault, c₁, r, hfailed, rfl, -, rfl⟩⟩ := next?_cases h
  · rw [hdone] at hmeets
    refine ⟨?_, hmeets.2⟩
    rintro s' rfl
    obtain ⟨-, ⟨⟩⟩ | ⟨r, -, ⟨⟩⟩ := hitem
    exact hmeets.1
  · rw [hfailed] at hmeets
    exact ⟨nofun, fun t ht => hmeets t ((Production.resume_suffix c₁.rest).subset ht)⟩

theorem recoverable_of_items {count : Nat} {ss : List Stmt} (hc : ∀ t ∈ c.rest, t.Faithful)
    (h : collect (c.items count).1 = .ok ss) : ∀ s ∈ ss, (Phrase.stmt s).Recoverable := by
  induction count generalizing c ss with
  | zero =>
    cases h
    exact nofun
  | succ count ih =>
    rw [items] at h
    split at h
    · cases h
      exact nofun
    · next item c' hnext =>
      obtain ⟨s, ss', rfl, hss', rfl⟩ := collect_cons_ok h
      obtain ⟨hitem, hc'⟩ := recoverable_of_next? hc hnext
      exact List.forall_mem_cons.2 ⟨hitem s rfl, ih hc' hss'⟩

end Cursor

section

variable {source : List UInt8} {ts : List Token} {n m : Nat}

theorem recoverable_of_parseProgram {ss : List Stmt} (h : Lexer.tokens source = .ok ts)
    (hread : parseProgram ts n = (.ok ss, m)) : ∀ s ∈ ss, (Phrase.stmt s).Recoverable :=
  Cursor.recoverable_of_items (Lexer.faithful_of_tokens h n) (Prod.mk.inj hread).1

theorem recoverable_of_parseExpression {e : Expr} (h : Lexer.tokens source = .ok ts)
    (hread : parseExpression ts n = (.ok e, m)) : (Phrase.expr e).Recoverable := by
  obtain ⟨c', hdone, -⟩ := parseExpression_eq_ok.1 hread
  have hfaithful := Lexer.faithful_of_tokens h n
  have hmeets := (Production.allYield (Cursor.start ts n).fuel).expression _ hfaithful
  rw [hdone] at hmeets
  exact hmeets.1.recoverable

end

/-- Statements without floating-point numbers that are shown alike are the same tree, up to references
and lines, whatever sources they were read from; and so are expressions. -/
theorem text_determines_tree {source source' : List UInt8} {ts ts' : List Token}
    (h : Lexer.tokens source = .ok ts) (h' : Lexer.tokens source' = .ok ts') (n n' : Nat) :
    (∀ ss ss' m m', parseProgram ts n = (.ok ss, m) → parseProgram ts' n' = (.ok ss', m') →
      ∀ s ∈ ss, ∀ s' ∈ ss', (∀ x, .float x ∉ s.literals) → (∀ x, .float x ∉ s'.literals) →
        s.text = s'.text → s.rename .bare = s'.rename .bare) ∧
    ∀ e e' m m', parseExpression ts n = (.ok e, m) → parseExpression ts' n' = (.ok e', m') →
      (∀ x, .float x ∉ e.literals) → (∀ x, .float x ∉ e'.literals) →
        e.text = e'.text → e.rename .bare = e'.rename .bare := by
  refine ⟨fun ss ss' m m' hread hread' s hs s' hs' hfloat hfloat' htext => ?_,
    fun e e' m m' hread hread' hfloat hfloat' htext => ?_⟩
  · have hrecover := recoverable_of_parseProgram h hread s hs
    have hrecover' := recoverable_of_parseProgram h' hread' s' hs'
    exact Phrase.stmt.inj (hrecover.bare_eq hrecover' hfloat hfloat' htext)
  · have hrecover := recoverable_of_parseExpression h hread
    have hrecover' := recoverable_of_parseExpression h' hread'
    exact Phrase.expr.inj (hrecover.bare_eq hrecover' hfloat hfloat' htext)

/-- The tokens of an assignment to `a`, all but the first on `line`. -/
def negativeSeven (number : String) (line : Nat) (more : List Token) : List Token :=
  ⟨.identifier, "a", 1⟩ :: ⟨.symbol .equal, "=", line⟩ :: ⟨.symbol .minus, "-", line⟩ ::
    ⟨.number 7, number, line⟩ :: (more ++ [Token.endOn line])

def negativeSevenTree (reference line : Nat) : Expr :=
  .assign reference ⟨.identifier, "a", 1⟩
    (.unary ⟨.symbol .minus, "-", line⟩ (.literal (.int 7)) .before)

/-- With and without a semicolon, and spaced in two ways. -/
theorem tokens_negativeSeven :
    Lexer.tokens "a = -07;".toUTF8.toList =
      .ok (negativeSeven "07" 1 [⟨.symbol .semicolon, ";", 1⟩]) ∧
    Lexer.tokens "a // b\n= -7;".toUTF8.toList =
      .ok (negativeSeven "7" 2 [⟨.symbol .semicolon, ";", 2⟩]) ∧
    Lexer.tokens "a = -07".toUTF8.toList = .ok (negativeSeven "07" 1 []) ∧
    Lexer.tokens "a // b\n= -7".toUTF8.toList = .ok (negativeSeven "7" 2 []) := by
  have hok : ∀ {source : List UInt8} {ts : List Token},
      (Lexer.tokens source).toOption = some ts → Lexer.tokens source = .ok ts := by
    intro source ts h
    cases htokens : Lexer.tokens source with
    | error f =>
      rw [htokens] at h
      cases h
    | ok ts' =>
      rw [htokens] at h
      rw [Option.some.inj h]
  exact ⟨hok (by decide +kernel), hok (by decide +kernel), hok (by decide +kernel),
    hok (by decide +kernel)⟩

theorem text_determines_tree_negativeSeven :
    (negativeSevenTree 1 1).text = "(= a (- 7))" ∧ (negativeSevenTree 4 2).text = "(= a (- 7))" ∧
    (Stmt.expression (negativeSevenTree 1 1)).rename .bare =
      (Stmt.expression (negativeSevenTree 4 2)).rename .bare ∧
    (negativeSevenTree 1 1).rename .bare = (negativeSevenTree 4 2).rename .bare := by
  obtain ⟨h, h', hlone, hlone'⟩ := tokens_negativeSeven
  have hread : parseProgram (negativeSeven "07" 1 [⟨.symbol .semicolon, ";", 1⟩]) 0 =
      (.ok [.expression (negativeSevenTree 1 1)], 2) := rfl
  have hread' : parseProgram (negativeSeven "7" 2 [⟨.symbol .semicolon, ";", 2⟩]) 3 =
      (.ok [.expression (negativeSevenTree 4 2)], 5) := rfl
  have hreadLone : parseExpression (negativeSeven "07" 1 []) 0 =
      (.ok (negativeSevenTree 1 1), 2) := rfl
  have hreadLone' : parseExpression (negativeSeven "7" 2 []) 3 =
      (.ok (negativeSevenTree 4 2), 5) := rfl
  have hfloat : ∀ reference line x, Literal.float x ∉ (negativeSevenTree reference line).literals := by
    simp [negativeSevenTree, Expr.literals]
  have htext : (negativeSevenTree 1 1).text = (negativeSevenTree 4 2).text := by decide
  have hshown : (Stmt.expression (negativeSevenTree 1 1)).text =
      (Stmt.expression (negativeSevenTree 4 2)).text := by decide
  refine ⟨by decide, by decide, ?_, ?_⟩
  · exact (text_determines_tree h h' 0 3).1 _ _ 2 5 hread hread' _ (List.mem_singleton.2 rfl) _
      (List.mem_singleton.2 rfl) (by simpa only [Stmt.literals] using hfloat 1 1)
      (by simpa only [Stmt.literals] using hfloat 4 2) hshown
  · exact (text_determines_tree hlone hlone' 0 3).2 _ _ 2 5 hreadLone hreadLone' (hfloat 1 1)
      (hfloat 4 2) htext

end TreeWalk
