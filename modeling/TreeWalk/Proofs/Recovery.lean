import TreeWalk.Proofs.Showing
import TreeWalk.Proofs.Respacing

/-!
# Every kind of node is recoverable

What is not shown of a token is its kind and its line, and the kind is known from the node that the
token belongs to and from how the token is written (`Token.Faithful`), as it is with every token that
was read from a source (`Lexer.Readable.faithful`). So a tree of such tokens is recoverable if its parts
are, one lemma for each kind of node.
-/

namespace TreeWalk

/-! ### Tokens -/

/-- A word that is a name: no keyword and no number. -/
structure IsName (word : String) : Prop where
  ne_nil : word.toList ≠ []
  bare : ∀ c ∈ word.toList, isDelimiter c = false
  notNumber : readInt64? word.toList = none
  notKeyword : ∀ k : Keyword, k.text ≠ word

/-- A token that is written as its kind demands. -/
structure Token.Faithful (t : Token) : Prop where
  symbol : ∀ s, t.kind = .symbol s → t.lexeme = String.ofList s.spelling
  keyword : ∀ k, t.kind = .keyword k → t.lexeme = k.text
  name : t.kind = .identifier → IsName t.lexeme
  string : ∀ s, t.kind = .string s → '"' ∉ s.toList

namespace Token

variable {t : Token}

theorem rename_symbol {s : Symbol} (h : t.Faithful) (hs : t.isSymbol s) : t.rename .bare = s.token := by
  obtain ⟨kind, lexeme, line⟩ := t
  obtain rfl : kind = .symbol s := isSymbol_iff.1 hs
  obtain rfl : lexeme = _ := h.symbol s rfl
  rfl

theorem rename_keyword {k : Keyword} (h : t.Faithful) (hk : t.isKeyword k) :
    t.rename .bare = k.token := by
  obtain ⟨kind, lexeme, line⟩ := t
  obtain rfl : kind = .keyword k := isKeyword_iff.1 hk
  obtain rfl : lexeme = _ := h.keyword k rfl
  rfl

theorem Names.isName (h : t.Names Faithful) : IsName t.lexeme :=
  h.1.name (isIdentifier_iff.1 h.2)

theorem Names.distinct (h : t.Names Faithful) : Distinct t.lexeme.toList :=
  .bare h.isName.ne_nil h.isName.bare

theorem rename_name (h : t.Names Faithful) : t.rename .bare = nameToken t.lexeme := by
  obtain ⟨kind, lexeme, line⟩ := t
  obtain rfl : kind = .identifier := isIdentifier_iff.1 h.2
  rfl

end Token

namespace Lexer

theorem toList_of_encode {text : String} (h : ∀ b ∈ Utf8.encode text, b.toNat < 0x80) :
    text.toList = (Utf8.encode text).map charOf := by
  have htext : text = asciiText (Utf8.encode text) :=
    Utf8.encode_injective (encode_asciiText h).symm
  rw [htext, asciiText, String.toList_ofList, ← asciiText, ← htext]

theorem isDelimiter_of_continuesWord (b : UInt8) :
    continuesWord b → isDelimiter (charOf b) = false := by
  revert b
  exact forall_byte (by decide +kernel)

theorem not_number_of_startsWord (b : UInt8) : startsWord b →
    (charOf b).isDigit = false ∧ charOf b ≠ '-' ∧ charOf b ≠ '+' := by
  revert b
  exact forall_byte (by decide +kernel)

theorem isName_of_word {text : String} (h : Lexeme (Utf8.encode text) .word)
    (hname : ∀ k : Keyword, k.text ≠ text) : IsName text := by
  generalize hbytes : Utf8.encode text = bytes at h
  cases h with
  | @word b more hb hmore =>
    have hword : ∀ c ∈ b :: more, continuesWord c :=
      List.forall_mem_cons.2 ⟨(continuesWord_iff b).2 (.inl hb), fun c hc =>
        (continuesWord_iff c).2 (hmore c hc)⟩
    have hchars : text.toList = (b :: more).map charOf := by
      rw [toList_of_encode (by rw [hbytes]; exact fun c hc => toNat_lt_of_word c (hword c hc)), hbytes]
    obtain ⟨hdigit, hminus, hplus⟩ := not_number_of_startsWord b ((startsWord_iff b).2 hb)
    refine ⟨?_, ?_, ?_, hname⟩
    · rw [hchars]
      exact List.cons_ne_nil _ _
    · rw [hchars]
      exact List.forall_mem_map.2 fun c hc => isDelimiter_of_continuesWord c (hword c hc)
    · rw [hchars]
      exact readInt64?_eq_none hdigit hminus hplus

theorem lexeme_of_symbol {s : Symbol} {text : String} (h : Lexeme (Utf8.encode text) (.symbol s)) :
    text = String.ofList s.spelling := by
  generalize hbytes : Utf8.encode text = bytes at h
  cases h with
  | symbol hs =>
    have hspelling : ∀ c ∈ s.spelling, c.toNat < 0x80 := by cases s <;> simp [Symbol.spelling]
    have hascii : ∀ b ∈ bytes, b.toNat < 0x80 := by
      intro b hb
      rw [← toNat_charOf]
      exact hspelling _ (hs ▸ List.mem_map_of_mem hb)
    rw [← String.toList_inj, toList_of_encode (hbytes ▸ hascii), hbytes, hs, String.toList_ofList]

theorem quote_not_mem {s : String} {bytes : List UInt8} (h : Lexeme bytes (.string (Utf8.encode s))) :
    '"' ∉ s.toList := by
  generalize hcontent : Utf8.encode s = content at h
  intro hmem
  have hbyte : 34 ∈ content := by
    rw [← hcontent, Utf8.encode_eq]
    exact List.mem_flatMap.2 ⟨'"', hmem, by decide⟩
  cases h with
  | string hquote => exact hquote hbyte

theorem Readable.faithful {t : Token} (h : Readable t) : t.Faithful := by
  obtain ⟨kind, lexeme, line⟩ := t
  obtain ⟨c, hlexeme, hstands⟩ := h
  cases hstands with
  | @symbol s =>
    refine ⟨?_, nofun, nofun, nofun⟩
    rintro s' ⟨⟩
    exact lexeme_of_symbol hlexeme
  | number => exact ⟨nofun, nofun, nofun, nofun⟩
  | keyword =>
    refine ⟨nofun, ?_, nofun, nofun⟩
    rintro k' ⟨⟩
    rfl
  | name _ hname => exact ⟨nofun, nofun, fun _ => isName_of_word hlexeme hname, nofun⟩
  | string hcontent =>
    refine ⟨nofun, nofun, nofun, ?_⟩
    rintro s' ⟨⟩
    exact quote_not_mem (hcontent ▸ hlexeme)

end Lexer

/-! ### Single words -/

namespace Outline

theorem leaf_of_isName {word : String} (h : IsName word) :
    leaf word = .variable 0 (nameToken word) := by
  have hnil : word ≠ "nil" := fun heq => h.notKeyword .nil_ heq.symm
  have htrue : word ≠ "true" := fun heq => h.notKeyword .true_ heq.symm
  have hfalse : word ≠ "false" := fun heq => h.notKeyword .false_ heq.symm
  have hthis : word ≠ "this" := fun heq => h.notKeyword .this_ heq.symm
  unfold leaf
  rw [if_neg hnil, if_neg htrue, if_neg hfalse, if_neg hthis]
  split
  · next cs hcs =>
    have hquote := h.bare '"' (hcs ▸ List.mem_cons_self)
    exact absurd hquote (by decide)
  · rw [h.notNumber]

theorem leaf_of_readInt64? {word : String} {n : Int64} (h : readInt64? word.toList = some n) :
    leaf word = .literal (.int n) := by
  have hne : ∀ {other : String}, readInt64? other.toList = none → word ≠ other := by
    rintro other hother rfl
    rw [h] at hother
    cases hother
  unfold leaf
  rw [if_neg (hne (by decide)), if_neg (hne (by decide)), if_neg (hne (by decide)),
    if_neg (hne (by decide))]
  split
  · next cs hcs =>
    rw [hcs, readInt64?_eq_none (by decide) (by decide) (by decide)] at h
    cases h
  · rw [h]

theorem leaf_quoted (s : String) : leaf ("\"" ++ s ++ "\"") = .literal (.string s) := by
  have hchars : ("\"" ++ s ++ "\"").toList = '"' :: (s.toList ++ ['"']) := by simp
  have hne : ∀ {other : String}, other.toList.head? ≠ some '"' → "\"" ++ s ++ "\"" ≠ other := by
    rintro other hother rfl
    exact hother (by rw [hchars]; rfl)
  unfold leaf
  rw [if_neg (hne (by decide)), if_neg (hne (by decide)), if_neg (hne (by decide)),
    if_neg (hne (by decide)), hchars]
  simp

end Outline

namespace Phrase

-- How every kind of node is shown, and which literals it has.
attribute [local simp] Expr.text Stmt.text Expr.literals Stmt.literals FunctionDecl.literals

theorem recoverable_word {p : Phrase} (word : String) (htext : p.text = word)
    (hdistinct : Distinct word.toList) (hread : .expr (Outline.leaf word) = p.bare) : p.Recoverable :=
  fun _ => ⟨.word word, hdistinct, by rw [htext, Outline.chars], congrArg some hread⟩

theorem recoverable_variable (reference : Nat) {name : Token} (h : name.Names Token.Faithful) :
    (expr (.variable reference name)).Recoverable := by
  refine recoverable_word name.lexeme rfl h.distinct ?_
  rw [Outline.leaf_of_isName h.isName, ← Token.rename_name h]
  rfl

theorem recoverable_this (reference : Nat) {keyword : Token} (h : keyword.Faithful)
    (hk : keyword.isKeyword .this_) : (expr (.this reference keyword)).Recoverable := by
  refine recoverable_word "this" rfl (.of_all (by decide) (by decide)) ?_
  have hleaf : Outline.leaf "this" = .this 0 Keyword.this_.token := rfl
  rw [hleaf, ← Token.rename_keyword h hk]
  rfl

theorem isDelimiter_of_isDigit {c : Char} (h : c.isDigit) : isDelimiter c = false := by
  cases hdelimiter : isDelimiter c with
  | false => rfl
  | true =>
    have hcases : c = '(' ∨ c = ')' ∨ c = ' ' ∨ c = '"' := by
      simpa [isDelimiter, or_assoc] using hdelimiter
    rcases hcases with rfl | rfl | rfl | rfl <;> exact absurd h (by decide)

theorem distinct_intText (n : Int) : Distinct (intText n).toList :=
  .bare (intText_ne_nil n) (forall_mem_intText n (by decide) fun _ => isDelimiter_of_isDigit)

theorem recoverable_literal {value : Literal} (h : ∀ s, value = .string s → '"' ∉ s.toList) :
    (expr (.literal value)).Recoverable := by
  cases value with
  | nil => exact recoverable_word "nil" rfl (.of_all (by decide) (by decide)) rfl
  | bool b =>
    cases b with
    | true => exact recoverable_word "true" rfl (.of_all (by decide) (by decide)) rfl
    | false => exact recoverable_word "false" rfl (.of_all (by decide) (by decide)) rfl
  | int n =>
    refine recoverable_word (intText n.toInt) rfl (distinct_intText n.toInt) ?_
    rw [Outline.leaf_of_readInt64? (readInt64?_intText n)]
    rfl
  | float x => exact fun hfloat => absurd List.mem_cons_self (hfloat x)
  | string s =>
    refine recoverable_word ("\"" ++ s ++ "\"") rfl ?_ (congrArg expr (Outline.leaf_quoted s))
    have hchars : ("\"" ++ s ++ "\"").toList = '"' :: (s.toList ++ ['"']) := by simp
    rw [hchars]
    exact .quoted (h s rfl)

/-! ### Expressions -/

section

variable {e left right condition whenTrue whenFalse : Expr} {t name : Token}

theorem toList_exprsText (es : List Expr) :
    (exprsText es).toList ++ [')'] = behindText (es.map expr) :=
  toList_parts rfl (fun _ _ => rfl) es

theorem renameExprs_eq_map (ρ : Renaming) (es : List Expr) :
    renameExprs ρ es = es.map (Expr.rename ρ) :=
  eq_map_of_cons rfl (fun _ _ => rfl) es

theorem mapM_exprs (es : List Expr) :
    ((es.map expr).map bare).mapM expr? = some (es.map (Expr.rename .bare)) :=
  mapM_parts (f := expr?) (fun _ => rfl) es

theorem literals_subset_exprs (es : List Expr) :
    ∀ p ∈ es.map expr, p.literals ⊆ literalsExprs es :=
  literals_subset_parts fun _ _ => rfl

theorem recoverable_group (h : (expr e).Recoverable) : (expr (.group e)).Recoverable := by
  have hn : Head.node .group ∈ Head.all := by decide
  refine .node hn [expr e] (by simpa using h) ?_ ?_ rfl
  · simp [literals]
  · simp [text, Head.text, behindText]

theorem recoverable_before (ht : t.Faithful) (hoperator : isPrefixOperator t)
    (h : (expr e).Recoverable) : (expr (.unary t e .before)).Recoverable := by
  obtain ⟨s, hs, hn⟩ : ∃ s, t.isSymbol s ∧ Head.node (.operator s) ∈ Head.all := by
    simp only [isPrefixOperator, Bool.or_eq_true] at hoperator
    rcases hoperator with ((hs | hs) | hs) | hs
    · exact ⟨.bang, hs, by decide⟩
    · exact ⟨.minus, hs, by decide⟩
    · exact ⟨.plusPlus, hs, by decide⟩
    · exact ⟨.minusMinus, hs, by decide⟩
  refine .node hn [expr e] (by simpa using h) ?_ ?_ ?_
  · simp [literals]
  · simp [text, Fixity.word, Head.text, behindText,
      ht.symbol s (Token.isSymbol_iff.1 hs)]
  · simp only [bare, Expr.rename, Token.rename_symbol ht hs]
    rfl

theorem recoverable_after (ht : t.Faithful) (hoperator : isPostfixOperator t)
    (h : (expr e).Recoverable) : (expr (.unary t e .after)).Recoverable := by
  obtain ⟨s, hs, hn⟩ : ∃ s, t.isSymbol s ∧ Head.node (.after s) ∈ Head.all := by
    simp only [isPostfixOperator, Bool.or_eq_true] at hoperator
    rcases hoperator with hs | hs
    · exact ⟨.plusPlus, hs, by decide⟩
    · exact ⟨.minusMinus, hs, by decide⟩
  refine .node hn [expr e] (by simpa using h) ?_ ?_ ?_
  · simp [literals]
  · simp [text, Fixity.word, Head.text, behindText,
      ht.symbol s (Token.isSymbol_iff.1 hs)]
  · simp only [bare, Expr.rename, Token.rename_symbol ht hs]
    rfl

theorem recoverable_binary {s : Symbol} (ht : t.Faithful) (hs : t.isSymbol s)
    (hn : Head.node (.operator s) ∈ Head.all) (hleft : (expr left).Recoverable)
    (hright : (expr right).Recoverable) : (expr (.binary left t right)).Recoverable := by
  refine .node hn [expr left, expr right] (by simpa using ⟨hleft, hright⟩) ?_ ?_ ?_
  · simp [literals]
  · simp [text, Head.text, behindText, ht.symbol s (Token.isSymbol_iff.1 hs)]
  · simp only [bare, Expr.rename, Token.rename_symbol ht hs]
    rfl

theorem recoverable_logical {k : Keyword} (ht : t.Faithful) (hk : t.isKeyword k)
    (hn : Head.node (.logical k) ∈ Head.all) (hleft : (expr left).Recoverable)
    (hright : (expr right).Recoverable) : (expr (.logical left t right)).Recoverable := by
  refine .node hn [expr left, expr right] (by simpa using ⟨hleft, hright⟩) ?_ ?_ ?_
  · simp [literals]
  · simp [text, Head.text, behindText, ht.keyword k (Token.isKeyword_iff.1 hk)]
  · simp only [bare, Expr.rename, Token.rename_keyword ht hk]
    rfl

theorem recoverable_level {level : Level} (ht : t.Faithful) (hoperator : level.hasOperator t)
    (hleft : (expr left).Recoverable) (hright : (expr right).Recoverable) :
    (expr (level.node left t right)).Recoverable := by
  have hsymbol : ∀ s, t.kind = .symbol s → Head.node (.operator s) ∈ Head.all →
      (expr (.binary left t right)).Recoverable := fun s hs hn =>
    recoverable_binary ht (Token.isSymbol_iff.2 hs) hn hleft hright
  have hkeyword : ∀ k, t.kind = .keyword k → Head.node (.logical k) ∈ Head.all →
      (expr (.logical left t right)).Recoverable := fun k hk hn =>
    recoverable_logical ht (Token.isKeyword_iff.2 hk) hn hleft hright
  unfold Level.hasOperator at hoperator
  split at hoperator
  · next k hk =>
    obtain rfl : k = .or_ := by simpa using hoperator
    exact hkeyword _ hk (by decide)
  · next k hk =>
    obtain rfl : k = .and_ := by simpa using hoperator
    exact hkeyword _ hk (by decide)
  · next s hs =>
    have hcases : s = .bangEqual ∨ s = .equalEqual := by simpa using hoperator
    rcases hcases with rfl | rfl
    · exact hsymbol _ hs (by decide)
    · exact hsymbol _ hs (by decide)
  · next s hs =>
    have hcases : s = .greater ∨ s = .greaterEqual ∨ s = .less ∨ s = .lessEqual := by
      simpa [or_assoc] using hoperator
    rcases hcases with rfl | rfl | rfl | rfl
    · exact hsymbol _ hs (by decide)
    · exact hsymbol _ hs (by decide)
    · exact hsymbol _ hs (by decide)
    · exact hsymbol _ hs (by decide)
  · next s hs =>
    have hcases : s = .minus ∨ s = .plus := by simpa using hoperator
    rcases hcases with rfl | rfl
    · exact hsymbol _ hs (by decide)
    · exact hsymbol _ hs (by decide)
  · next s hs =>
    have hcases : s = .slash ∨ s = .star := by simpa using hoperator
    rcases hcases with rfl | rfl
    · exact hsymbol _ hs (by decide)
    · exact hsymbol _ hs (by decide)
  · cases hoperator

theorem recoverable_ternary (hcondition : (expr condition).Recoverable)
    (htrue : (expr whenTrue).Recoverable) (hfalse : (expr whenFalse).Recoverable) :
    (expr (.ternary condition whenTrue whenFalse)).Recoverable := by
  have hn : Head.node .ternary ∈ Head.all := by decide
  refine .node hn [expr condition, expr whenTrue, expr whenFalse]
    (by simpa using ⟨hcondition, htrue, hfalse⟩) ?_ ?_ rfl
  · simp [literals]
  · simp [text, Head.text, behindText]

theorem recoverable_assign (reference : Nat) (hname : name.Names Token.Faithful)
    (h : (expr e).Recoverable) : (expr (.assign reference name e)).Recoverable := by
  have hn : Head.node .assign ∈ Head.all := by decide
  refine .node hn [expr (.variable 0 name), expr e]
    (by simpa using ⟨recoverable_variable 0 hname, h⟩) ?_ ?_ rfl
  · simp [literals]
  · simp [text, Head.text, behindText]

theorem recoverable_call {arguments : List Expr} (ht : t.Faithful) (hparen : t.isSymbol .rightParen)
    (h : (expr e).Recoverable) (harguments : ∀ e ∈ arguments, (expr e).Recoverable) :
    (expr (.call e t arguments)).Recoverable := by
  have hn : Head.node .call ∈ Head.all := by decide
  refine .node hn (expr e :: arguments.map expr)
    (List.forall_mem_cons.2 ⟨h, List.forall_mem_map.2 harguments⟩) ?_ ?_ ?_
  · refine List.forall_mem_cons.2 ⟨List.subset_append_left _ _, fun p hp => ?_⟩
    exact List.subset_append_of_subset_right _ (literals_subset_exprs arguments p hp)
  · simp [text, Head.text, behindText, ← toList_exprsText]
  · simp only [List.map_cons, bare, Expr.rename, Token.rename_symbol ht hparen, renameExprs_eq_map,
      Node.assemble?, mapM_exprs, Option.map_some]

theorem recoverable_array {elements : List Expr} (ht : t.Faithful) (hbracket : t.isSymbol .leftBracket)
    (h : ∀ e ∈ elements, (expr e).Recoverable) : (expr (.array t elements)).Recoverable := by
  have hn : Head.node .array ∈ Head.all := by decide
  refine .node hn (elements.map expr) (List.forall_mem_map.2 h) ?_ ?_ ?_
  · exact literals_subset_exprs elements
  · simp [text, Head.text, ← toList_exprsText]
  · simp only [bare, Expr.rename, Token.rename_symbol ht hbracket, renameExprs_eq_map,
      Node.assemble?, mapM_exprs, Option.map_some]

theorem recoverable_index (ht : t.Faithful) (hbracket : t.isSymbol .leftBracket)
    (hleft : (expr left).Recoverable) (hright : (expr right).Recoverable) :
    (expr (.index left t right)).Recoverable := by
  have hn : Head.node .index ∈ Head.all := by decide
  refine .node hn [expr left, expr right] (by simpa using ⟨hleft, hright⟩) ?_ ?_ ?_
  · simp [literals]
  · simp [text, Head.text, behindText]
  · simp only [bare, Expr.rename, Token.rename_symbol ht hbracket]
    rfl

theorem recoverable_get (hname : name.Names Token.Faithful) (h : (expr e).Recoverable) :
    (expr (.get e name)).Recoverable := by
  have hn : Head.node .get ∈ Head.all := by decide
  refine .node hn [expr e, expr (.variable 0 name)]
    (by simpa using ⟨h, recoverable_variable 0 hname⟩) ?_ ?_ rfl
  · simp [literals]
  · simp [text, Head.text, behindText]

theorem recoverable_set (hname : name.Names Token.Faithful) (hleft : (expr left).Recoverable)
    (hright : (expr right).Recoverable) : (expr (.set left name right)).Recoverable := by
  have hn : Head.node .set ∈ Head.all := by decide
  refine .node hn [expr left, expr (.variable 0 name), expr right]
    (by simpa using ⟨hleft, recoverable_variable 0 hname, hright⟩) ?_ ?_ rfl
  · simp [literals]
  · simp [text, Head.text, behindText]

end

/-! ### Functions -/

section

variable {decl : FunctionDecl} {name : Token}

theorem renameStmts_eq_map (ρ : Renaming) (ss : List Stmt) :
    renameStmts ρ ss = ss.map (Stmt.rename ρ) :=
  eq_map_of_cons rfl (fun _ _ => rfl) ss

theorem literals_subset_stmts (ss : List Stmt) :
    ∀ p ∈ ss.map stmt, p.literals ⊆ literalsStmts ss :=
  literals_subset_parts fun _ _ => rfl

/-- The parameters are names and the statements of the body are recoverable. -/
structure RecoverableParts (decl : FunctionDecl) : Prop where
  parameters : ∀ x ∈ decl.parameters, x.Names Token.Faithful
  body : ∀ s ∈ decl.body, (stmt s).Recoverable

theorem rename_names {names : List Token} (h : ∀ x ∈ names, x.Names Token.Faithful) :
    names.map (·.rename .bare) = (names.map Token.lexeme).map nameToken := by
  rw [List.map_map]
  exact List.map_congr_left fun x hx => Token.rename_name (h x hx)

theorem recoverable_lambda (h : RecoverableParts decl) (hname : decl.name = none)
    (hkeyword : decl.keyword.Faithful) (hfun : decl.keyword.isKeyword .fun_) :
    (expr (.lambda decl)).Recoverable := by
  obtain ⟨_, parameters, body, keyword⟩ := decl
  cases hname
  have hword : Distinct "lambda".toList := .of_all (by decide) (by decide)
  have hlabel : Distinct (FunctionDecl.label ⟨none, parameters, body, keyword⟩).toList := hword
  refine .function (r := .lambda) hlabel
    (fun x hx => (h.parameters x hx).distinct) h.body (literals_subset_stmts body) ?_ ?_
  · rw [text, Expr.text, Head.text]
  · simp only [Role.assemble, bare, Expr.rename, FunctionDecl.rename, rename_names h.parameters,
      renameStmts_eq_map, Token.rename_keyword hkeyword hfun, Option.map_none]

/-- A function with a name, whatever it is shown as. -/
theorem recoverable_named {r : Role} {p : Phrase} (h : RecoverableParts decl)
    (hname : decl.name = some name) (hn : name.Names Token.Faithful)
    (hliterals : p.literals = decl.literals) (htext : p.text = decl.text (Head.function r).text)
    (hread : p.bare = r.assemble name.lexeme (decl.parameters.map Token.lexeme)
      (decl.body.map (Stmt.rename .bare))) : p.Recoverable := by
  obtain ⟨_, parameters, body, keyword⟩ := decl
  cases hname
  have hlabel : Distinct (FunctionDecl.label ⟨some name, parameters, body, keyword⟩).toList :=
    hn.distinct
  refine .function (r := r) hlabel (fun x hx => (h.parameters x hx).distinct) h.body ?_ htext
    hread.symm
  rw [hliterals]
  exact literals_subset_stmts body

theorem rename_named (h : RecoverableParts decl) (hname : decl.name = some name)
    (hkeyword : decl.keyword = name) (hn : name.Names Token.Faithful) : decl.rename .bare =
      ⟨some (nameToken name.lexeme), (decl.parameters.map Token.lexeme).map nameToken,
        decl.body.map (Stmt.rename .bare), nameToken name.lexeme⟩ := by
  obtain ⟨_, parameters, body, keyword⟩ := decl
  cases hname
  obtain rfl : keyword = name := hkeyword
  simp only [FunctionDecl.rename, rename_names h.parameters, renameStmts_eq_map,
    Token.rename_name hn, Option.map_some]

theorem recoverable_function (h : RecoverableParts decl) (hname : decl.name = some name)
    (hkeyword : decl.keyword = name) (hn : name.Names Token.Faithful) :
    (stmt (.function decl)).Recoverable := by
  refine recoverable_named (r := .function) h hname hn rfl ?_ ?_
  · rw [text, Stmt.text, Head.text]
  · rw [bare, Stmt.rename, rename_named h hname hkeyword hn]
    rfl

theorem recoverable_method (h : RecoverableParts decl) (hname : decl.name = some name)
    (hkeyword : decl.keyword = name) (hn : name.Names Token.Faithful) :
    (method decl).Recoverable := by
  refine recoverable_named (r := .method) h hname hn rfl ?_ ?_
  · rw [text, Head.text]
  · rw [bare, rename_named h hname hkeyword hn]
    rfl

end

/-! ### Statements -/

section

variable {e : Expr} {s s' : Stmt} {t name : Token}

theorem recoverable_block {body : List Stmt} (h : ∀ s ∈ body, (stmt s).Recoverable) :
    (stmt (.block body)).Recoverable := by
  have hn : Head.node .block ∈ Head.all := by decide
  refine .node hn (body.map stmt) (List.forall_mem_map.2 h) ?_ ?_ ?_
  · exact literals_subset_stmts body
  · simp [text, Head.text, ← toList_stmtsText]
  · have hread : ((body.map stmt).map bare).mapM stmt? = some (body.map (Stmt.rename .bare)) :=
      mapM_parts (f := stmt?) (fun _ => rfl) body
    simp only [bare, Stmt.rename, renameStmts_eq_map, Node.assemble?, hread, Option.map_some]

theorem recoverable_expression (h : (expr e).Recoverable) : (stmt (.expression e)).Recoverable := by
  have hn : Head.node .expression ∈ Head.all := by decide
  refine .node hn [expr e] (by simpa using h) ?_ ?_ rfl
  · simp [literals]
  · simp [text, Head.text, behindText]

theorem recoverable_print (h : (expr e).Recoverable) : (stmt (.print e)).Recoverable := by
  have hn : Head.node .print ∈ Head.all := by decide
  refine .node hn [expr e] (by simpa using h) ?_ ?_ rfl
  · simp [literals]
  · simp [text, Head.text, behindText]

theorem toList_bindingsText (bs : List (Token × Option Expr)) :
    (bindingsText bs).toList ++ [')'] = behindText (bs.map binding) := by
  refine toList_parts rfl (fun b bs => ?_) bs
  obtain ⟨name, _ | value⟩ := b
  · rfl
  · rw [← String.toList_inj]
    simp [bindingsText, binding, text]

theorem renameBindings_eq_map (ρ : Renaming) (bs : List (Token × Option Expr)) :
    renameBindings ρ bs = bs.map fun b => (b.1.rename ρ, b.2.map (Expr.rename ρ)) := by
  refine eq_map_of_cons rfl (fun b bs => ?_) bs
  obtain ⟨name, _ | value⟩ := b
  · rfl
  · rfl

theorem literals_subset_bindings (bs : List (Token × Option Expr)) :
    ∀ p ∈ bs.map binding, p.literals ⊆ literalsBindings bs := by
  refine literals_subset_parts fun b bs => ?_
  obtain ⟨name, _ | value⟩ := b
  · rfl
  · rfl

theorem recoverable_binding {b : Token × Option Expr} (hname : b.1.Names Token.Faithful)
    (h : ∀ e ∈ b.2, (expr e).Recoverable) : (binding b).Recoverable := by
  obtain ⟨name, _ | value⟩ := b
  · exact recoverable_variable 0 hname
  · exact recoverable_assign 0 hname (h value rfl)

theorem recoverable_var {bs : List (Token × Option Expr)}
    (h : ∀ b ∈ bs, b.1.Names Token.Faithful ∧ ∀ e ∈ b.2, (expr e).Recoverable) :
    (stmt (.var bs)).Recoverable := by
  have hn : Head.node .var ∈ Head.all := by decide
  refine .node hn (bs.map binding)
    (List.forall_mem_map.2 fun b hb => recoverable_binding (h b hb).1 (h b hb).2) ?_ ?_ ?_
  · exact literals_subset_bindings bs
  · simp [text, Head.text, ← toList_bindingsText]
  · have hread : ((bs.map binding).map bare).mapM binding? =
        some (bs.map fun b => (b.1.rename .bare, b.2.map (Expr.rename .bare))) := by
      refine mapM_parts (f := binding?) (fun b => ?_) bs
      obtain ⟨name, _ | value⟩ := b
      · rfl
      · rfl
    simp only [bare, Stmt.rename, renameBindings_eq_map, Node.assemble?, hread, Option.map_some]

theorem toList_methodsText (fs : List FunctionDecl) :
    (methodsText fs).toList ++ [')'] = behindText (fs.map method) :=
  toList_parts rfl (fun _ _ => rfl) fs

theorem renameMethods_eq_map (ρ : Renaming) (fs : List FunctionDecl) :
    renameMethods ρ fs = fs.map (FunctionDecl.rename ρ) :=
  eq_map_of_cons rfl (fun _ _ => rfl) fs

theorem literals_subset_methods (fs : List FunctionDecl) :
    ∀ p ∈ fs.map method, p.literals ⊆ literalsMethods fs :=
  literals_subset_parts fun _ _ => rfl

theorem recoverable_classDecl {methods : List FunctionDecl} (hname : name.Names Token.Faithful)
    (h : ∀ f ∈ methods, (method f).Recoverable) :
    (stmt (.classDecl name methods)).Recoverable := by
  have hn : Head.node .classDecl ∈ Head.all := by decide
  refine .node hn (expr (.variable 0 name) :: methods.map method)
    (List.forall_mem_cons.2 ⟨recoverable_variable 0 hname, List.forall_mem_map.2 h⟩) ?_ ?_ ?_
  · exact List.forall_mem_cons.2 ⟨List.nil_subset _, literals_subset_methods methods⟩
  · simp [text, Head.text, behindText, ← toList_methodsText]
  · have hread : ((methods.map method).map bare).mapM method? =
        some (methods.map (FunctionDecl.rename .bare)) :=
      mapM_parts (f := method?) (fun _ => rfl) methods
    simp only [List.map_cons, bare, Expr.rename, Stmt.rename, renameMethods_eq_map, Node.assemble?,
      hread, Option.map_some]

theorem recoverable_conditional {whenFalse : Option Stmt} (hcondition : (expr e).Recoverable)
    (htrue : (stmt s).Recoverable) (hfalse : ∀ s' ∈ whenFalse, (stmt s').Recoverable) :
    (stmt (.conditional e s whenFalse)).Recoverable := by
  have hn : Head.node .conditional ∈ Head.all := by decide
  cases whenFalse with
  | none =>
    refine .node hn [expr e, stmt s] (by simpa using ⟨hcondition, htrue⟩) ?_ ?_ rfl
    · simp [literals]
    · simp [text, Head.text, behindText]
  | some s' =>
    refine .node hn [expr e, stmt s, stmt s']
      (by simpa using ⟨hcondition, htrue, hfalse s' rfl⟩) ?_ ?_ rfl
    · simp [literals]
    · simp [text, Head.text, behindText]

theorem recoverable_loop {increment : Option Expr} (hcondition : (expr e).Recoverable)
    (hbody : (stmt s).Recoverable) (hincrement : ∀ e' ∈ increment, (expr e').Recoverable) :
    (stmt (.loop e s increment)).Recoverable := by
  have hn : Head.node .loop ∈ Head.all := by decide
  cases increment with
  | none =>
    refine .node hn [expr e, stmt s] (by simpa using ⟨hcondition, hbody⟩) ?_ ?_ rfl
    · simp [literals]
    · simp [text, Head.text, behindText]
  | some e' =>
    refine .node hn [expr e, stmt s, expr e']
      (by simpa using ⟨hcondition, hbody, hincrement e' rfl⟩) ?_ ?_ rfl
    · simp [literals]
    · simp [text, Head.text, behindText]

/-- A jump has its keyword and no other part. -/
theorem recoverable_jump {n : Node} {k : Keyword} (node : Token → Stmt) (hn : .node n ∈ Head.all)
    (htext : (node t).text = "(" ++ (Head.node n).text ++ ")")
    (hrename : (node t).rename .bare = node (t.rename .bare))
    (hread : n.assemble? [] = some (.stmt (node k.token))) (ht : t.Faithful) (hk : t.isKeyword k) :
    (stmt (node t)).Recoverable := by
  refine .node hn [] nofun nofun ?_ ?_
  · simp [text, htext, behindText]
  · rw [bare, hrename, Token.rename_keyword ht hk]
    exact hread

theorem recoverable_returning {value : Option Expr} (ht : t.Faithful) (hk : t.isKeyword .return_)
    (h : ∀ e ∈ value, (expr e).Recoverable) : (stmt (.returning t value)).Recoverable := by
  have hn : Head.node .returning ∈ Head.all := by decide
  cases value with
  | none => exact recoverable_jump (.returning · none) hn rfl rfl rfl ht hk
  | some e =>
    refine .node hn [expr e] (by simpa using h e rfl) ?_ ?_ ?_
    · simp [literals]
    · simp [text, Head.text, behindText]
    · simp only [bare, Stmt.rename, Token.rename_keyword ht hk]
      rfl

end

end Phrase

end TreeWalk
