import TreeWalk.Proofs.Program
import TreeWalk.Proofs.Progress

/-!
# Where a reader stands

A cursor of a reading stands at one of the tokens, at the first end of source or before it
(`Cursor.StandsAt`). Productions only go on from there, every item of a reading takes at least one
token more, and what stands behind the first end of source is never looked at. With the fuel from
`Proofs.Progress` this makes reading total on every list of tokens, well formed or not
(`parse_reads_inside`).
-/

namespace TreeWalk

open Production

variable {c c' : Cursor} {item : Except Rejection Stmt}

/-! ### Declarations one by one -/

theorem Rejection.toList_ending (pending : List SyntaxFault) (last : SyntaxFault) :
    (Rejection.ending pending last).toList = pending ++ [last] := by
  cases pending <;> rfl

/-- The two ways in which an item comes about: a declaration has been read, perhaps with faults inside
of it, or it has been given up. -/
theorem Cursor.next?_cases (h : c.next? = some (item, c')) : c.rest ≠ [] ∧
    ((∃ s c₁, declaration c.fuel c = .done s c₁ ∧ c' = { c₁ with faults := [] } ∧
        ((c₁.faults = [] ∧ item = .ok s) ∨ ∃ r, r.toList = c₁.faults ∧ item = .error r)) ∨
      ∃ fault c₁ r, declaration c.fuel c = .failed fault c₁ ∧
        c' = { c₁ with rest := resume c₁.rest, faults := [] } ∧
        r.toList = c₁.faults ++ [fault] ∧ item = .error r) := by
  unfold Cursor.next? at h
  split at h
  · cases h
  · next hrest =>
    have hne : c.rest ≠ [] := fun hnil => hrest (List.isEmpty_iff.2 hnil)
    have hreply := Option.some.inj h
    refine ⟨hne, ?_⟩
    split at hreply
    · next s c₁ hdone =>
      split at hreply
      · next hfaults =>
        cases hreply
        refine .inl ⟨s, c', hdone, ?_, .inl ⟨hfaults, rfl⟩⟩
        rw [← hfaults]
      · next f fs hfaults =>
        cases hreply
        exact .inl ⟨s, c₁, hdone, rfl, .inr ⟨⟨f, fs⟩, hfaults.symm, rfl⟩⟩
    · next fault c₁ hfailed =>
      cases hreply
      exact .inr ⟨fault, c₁, _, hfailed, rfl, Rejection.toList_ending _ _, rfl⟩

/-- Every item takes a token. -/
theorem Cursor.next?_length_lt (h : c.next? = some (item, c')) :
    c'.rest.length < c.rest.length := by
  obtain ⟨hne, ⟨s, c₁, hdone, rfl, -⟩ | ⟨fault, c₁, r, hfailed, rfl, -, -⟩⟩ := Cursor.next?_cases h
  · exact shortens_declaration c.fuel c s c₁ hdone
  · have hfollows := (allSteady c.fuel).declaration c
    rw [hfailed] at hfollows
    show (resume c₁.rest).length < c.rest.length
    by_cases hrest : c₁.rest = []
    · rw [hrest]
      exact List.length_pos_iff.2 hne
    · exact Nat.lt_of_lt_of_le (length_resume_lt hrest) hfollows.length_le

theorem Cursor.next?_eq_none (h : c.rest = []) : c.next? = none := by
  rw [Cursor.next?, h]
  rfl

/-- As many items as there are tokens are all items. -/
theorem Cursor.items_of_le {count count' : Nat} (h : c.rest.length ≤ count) (h' : count ≤ count') :
    c.items count' = c.items count := by
  induction count generalizing c count' with
  | zero =>
    have hnone := Cursor.next?_eq_none (List.eq_nil_of_length_eq_zero (Nat.le_zero.1 h))
    cases count' with
    | zero => rfl
    | succ count' => rw [Cursor.items, Cursor.items, hnone]
  | succ count ih =>
    obtain ⟨count', rfl⟩ : ∃ k, count' = k + 1 := ⟨count' - 1, by omega⟩
    rw [Cursor.items, Cursor.items]
    cases hnext : c.next? with
    | none => rfl
    | some next =>
      obtain ⟨item, c₁⟩ := next
      have hlen := Cursor.next?_length_lt hnext
      show (item :: (c₁.items count').1, (c₁.items count').2) = _
      rw [ih (by omega) (Nat.le_of_succ_le_succ h')]

/-- Behind all items stands the end of the source. -/
theorem Cursor.items_rest {count : Nat} (h : c.rest.length ≤ count) : (c.items count).2.rest = [] := by
  induction count generalizing c with
  | zero => exact List.eq_nil_of_length_eq_zero (Nat.le_zero.1 h)
  | succ count ih =>
    rw [Cursor.items]
    cases hnext : c.next? with
    | none => exact Cursor.next?_none hnext
    | some next =>
      have hlen := Cursor.next?_length_lt hnext
      exact ih (by omega)

/-- No item blames the fuel. -/
theorem Cursor.next?_shallow (h : c.next? = some (item, c')) (hc : c.Shallow) :
    c'.Shallow ∧ ∀ r, item = .error r → ∀ f ∈ r.toList, f.cause ≠ .tooDeep := by
  have hs := shallow_declaration hc
  obtain ⟨-, ⟨s, c₁, hdone, rfl, hitem⟩ | ⟨fault, c₁, r, hfailed, rfl, hr, rfl⟩⟩ :=
    Cursor.next?_cases h
  · rw [hdone] at hs
    refine ⟨nofun, ?_⟩
    rcases hitem with ⟨-, rfl⟩ | ⟨r, hr, rfl⟩
    · nofun
    · intro r' hr' f hf
      cases hr'
      rw [hr] at hf
      exact hs f hf
  · rw [hfailed] at hs
    refine ⟨nofun, ?_⟩
    intro r' hr' f hf
    cases hr'
    rw [hr] at hf
    rcases List.mem_append.1 hf with hf | hf
    · exact hs.2 f hf
    · rw [List.mem_singleton.1 hf]
      exact hs.1

theorem Cursor.items_shallow {count : Nat} (hc : c.Shallow) :
    ∀ r, .error r ∈ (c.items count).1 → ∀ f ∈ r.toList, f.cause ≠ .tooDeep := by
  induction count generalizing c with
  | zero => exact fun _ hr => absurd hr List.not_mem_nil
  | succ count ih =>
    rw [Cursor.items]
    cases hnext : c.next? with
    | none => exact fun _ hr => absurd hr List.not_mem_nil
    | some next =>
      obtain ⟨item, c₁⟩ := next
      obtain ⟨hc₁, hitem⟩ := Cursor.next?_shallow hnext hc
      intro r hr
      rcases List.mem_cons.1 hr with hr | hr
      · exact hitem r hr.symm
      · exact ih hc₁ r hr

/-! ### Places among the tokens -/

variable {tokens : List Token} {i n : Nat}

/-- The cursor stands at token `i`, at the first end of source or before it. -/
structure Cursor.StandsAt (tokens : List Token) (i : Nat) (c : Cursor) : Prop where
  le : i ≤ tokens.findIdx Token.isEnd
  rest : c.rest = (tokens.take (tokens.findIdx Token.isEnd)).drop i
  endLine : ∀ eof, tokens[tokens.findIdx Token.isEnd]? = some eof → c.endLine = eof.line

theorem Cursor.start_rest (tokens : List Token) (n : Nat) :
    (Cursor.start tokens n).rest = tokens.take (tokens.findIdx Token.isEnd) := by
  show tokens.takeWhile (fun t => !t.isEnd) = _
  rw [List.takeWhile_eq_take_findIdx_not]
  simp only [Bool.not_not]

theorem Cursor.standsAt_start (tokens : List Token) (n : Nat) :
    (Cursor.start tokens n).StandsAt tokens 0 := by
  refine ⟨Nat.zero_le _, Cursor.start_rest tokens n, ?_⟩
  intro eof heof
  rw [← List.find?_eq_getElem?_findIdx] at heof
  rw [Cursor.start, heof]

/-- Reading goes on from where it stands. -/
theorem Cursor.StandsAt.of_suffix (h : c.StandsAt tokens i) (hrest : c'.rest <:+ c.rest)
    (hline : c'.endLine = c.endLine) :
    c'.StandsAt tokens (i + (c.rest.length - c'.rest.length)) := by
  have hlen : c.rest.length = tokens.findIdx Token.isEnd - i := by
    rw [h.rest, List.length_drop, List.length_take, Nat.min_eq_left List.findIdx_le_length]
  refine ⟨?_, ?_, fun eof heof => hline.trans (h.endLine eof heof)⟩
  · have := h.le
    omega
  · have hdrop := List.suffix_iff_eq_drop.1 hrest
    rwa [h.rest, List.drop_drop, ← h.rest] at hdrop

theorem Cursor.StandsAt.follows (h : c.StandsAt tokens i) (hf : c.Follows c') :
    ∃ j, i ≤ j ∧ c'.StandsAt tokens j :=
  ⟨_, Nat.le_add_right _ _, h.of_suffix hf.rest hf.endLine⟩

theorem Token.place_of_isEnd {t : Token} (h : t.isEnd) : t.place = ⟨t.line, none⟩ := by
  obtain ⟨kind, lexeme, line⟩ := t
  cases kind <;> first | rfl | cases h

theorem Token.place_of_not_isEnd {t : Token} (h : t.isEnd = false) :
    t.place = ⟨t.line, some t.lexeme⟩ := by
  obtain ⟨kind, lexeme, line⟩ := t
  cases kind <;> first | rfl | cases h

theorem Cursor.place_of_cons {t : Token} {rest : List Token} (hrest : c.rest = t :: rest)
    (ht : t.isEnd = false) : c.place = t.place := by
  rw [Token.place_of_not_isEnd ht]
  unfold Cursor.place
  rw [hrest]

/-- What a cursor sees is the token at which it stands. -/
theorem Cursor.StandsAt.token (h : c.StandsAt tokens i) (hend : ∃ t ∈ tokens, t.isEnd) :
    ∃ t, tokens[i]? = some t ∧ c.place = t.place ∧ (c.rest = [] ↔ t.isEnd) := by
  have hlt := List.findIdx_lt_length.2 hend
  have hi : i < tokens.length := Nat.lt_of_le_of_lt h.le hlt
  refine ⟨tokens[i], List.getElem?_eq_getElem hi, ?_⟩
  rcases Nat.lt_or_eq_of_le h.le with hbefore | rfl
  · have hkind : tokens[i].isEnd = false := List.not_of_lt_findIdx hbefore
    have hlen : i < (tokens.take (tokens.findIdx Token.isEnd)).length := by
      rw [List.length_take]
      omega
    have hrest := h.rest
    rw [List.drop_eq_getElem_cons hlen, List.getElem_take] at hrest
    exact ⟨Cursor.place_of_cons hrest hkind, by simp [hrest, hkind]⟩
  · have hkind : tokens[tokens.findIdx Token.isEnd].isEnd := List.findIdx_getElem
    have hrest : c.rest = [] := by
      rw [h.rest]
      exact List.drop_eq_nil_of_le (List.length_take_le _ _)
    refine ⟨?_, by simp [hrest, hkind]⟩
    rw [Cursor.place, hrest, Token.place_of_isEnd hkind,
      h.endLine _ (List.getElem?_eq_getElem hlt)]

theorem Cursor.StandsAt.next? (h : c.StandsAt tokens i) (hnext : c.next? = some (item, c')) :
    ∃ j, i < j ∧ c'.StandsAt tokens j := by
  have hlt := Cursor.next?_length_lt hnext
  have hsteady := (allSteady c.fuel).declaration c
  obtain ⟨-, ⟨s, c₁, hdone, rfl, -⟩ | ⟨fault, c₁, r, hfailed, rfl, -, -⟩⟩ :=
    Cursor.next?_cases hnext
  · rw [hdone] at hsteady
    exact ⟨_, by omega, h.of_suffix hsteady.rest hsteady.endLine⟩
  · rw [hfailed] at hsteady
    exact ⟨_, by omega, h.of_suffix ((resume_suffix _).trans hsteady.rest) hsteady.endLine⟩

/-- What stands behind an end of source does not matter. -/
theorem Cursor.start_append {eof : Token} (heof : eof.isEnd) (ts more : List Token) (n : Nat) :
    Cursor.start (ts ++ eof :: more) n = Cursor.start (ts ++ [eof]) n := by
  have htake : (ts ++ eof :: more).takeWhile (fun t => !t.isEnd) =
      (ts ++ [eof]).takeWhile fun t => !t.isEnd := by
    simp [List.takeWhile_append, heof]
  have hfind : (ts ++ eof :: more).find? Token.isEnd = (ts ++ [eof]).find? Token.isEnd := by
    simp [List.find?_append, heof]
  rw [Cursor.start, Cursor.start, htake, hfind]

theorem Cursor.start_length_le (tokens : List Token) (n : Nat) :
    (Cursor.start tokens n).rest.length ≤ tokens.length :=
  (List.takeWhile_sublist _).length_le

theorem parseItems_append {eof : Token} (heof : eof.isEnd) (ts more : List Token) (n : Nat) :
    parseItems (ts ++ eof :: more) n = parseItems (ts ++ [eof]) n := by
  have hlen := Cursor.start_length_le (ts ++ [eof]) n
  rw [parseItems, parseItems, Cursor.start_append heof]
  exact Cursor.items_of_le hlen (by simp)

/-! ### Reading as a whole -/

/-- Reading `tokens` comes to an end, goes on with every item and looks at nothing but the tokens up
to the first end of source. -/
structure ReadsInside (tokens : List Token) (n : Nat) : Prop where
  start : (Cursor.start tokens n).StandsAt tokens 0
  /-- Where a cursor stands there is a token, and that is what the cursor sees. -/
  token : ∀ (c : Cursor) i, tokens ≠ [] → c.StandsAt tokens i → i ≤ tokens.findIdx Token.isEnd ∧
    ∃ t, tokens[i]? = some t ∧ c.place = t.place ∧ (c.rest = [] ↔ t.isEnd)
  /-- Every production and every part of one goes on from where it starts, and never past the end. -/
  production : ∀ {α : Type} (p : Production α), p.Composed → ∀ c i, c.StandsAt tokens i →
    ∃ j, i ≤ j ∧ (p c).after.StandsAt tokens j
  item : ∀ (c c' : Cursor) i it, c.StandsAt tokens i → c.next? = some (it, c') →
    ∃ j, i < j ∧ c'.StandsAt tokens j
  /-- There are items up to the end of the source. -/
  lastItem : ∀ c : Cursor, c.next? = none ↔ c.rest = []
  /-- Whoever had more fuel would read the same. -/
  fuel : ∀ (c : Cursor) fuel, c.fuel ≤ fuel →
    declaration fuel c = declaration c.fuel c ∧ expression fuel c = expression c.fuel c
  items : ∀ count, tokens.length ≤ count →
    (Cursor.start tokens n).items count = parseItems tokens n
  finished : (parseItems tokens n).2.rest = []
  itemFaults : ∀ r, .error r ∈ (parseItems tokens n).1 →
    r.toList ≠ [] ∧ ∀ f ∈ r.toList, f.cause ≠ .tooDeep
  expressionFault : ∀ f, (parseExpression tokens n).1 = .error f → f.cause ≠ .tooDeep
  /-- Other tokens behind the first end of source make no difference. -/
  behind : ∀ ts eof more more', eof.isEnd → tokens = ts ++ eof :: more →
    parseItems (ts ++ eof :: more') n = parseItems tokens n ∧
    parseProgram (ts ++ eof :: more') n = parseProgram tokens n ∧
    parseExpression (ts ++ eof :: more') n = parseExpression tokens n

theorem Cursor.shallow_start (tokens : List Token) (n : Nat) : (Cursor.start tokens n).Shallow :=
  nofun

theorem parseExpression_shallow {f : SyntaxFault} (h : (parseExpression tokens n).1 = .error f) :
    f.cause ≠ .tooDeep := by
  have hs := shallow_expression (Cursor.shallow_start tokens n)
  unfold parseExpression at h
  dsimp only at h
  split at h
  · split at h <;> cases h
    nofun
  · next hfailed =>
    rw [hfailed] at hs
    cases h
    exact hs.1

/-- Reading is total on lists of tokens with an end of source, whatever else they are made of. -/
theorem parse_reads_inside {tokens : List Token} (h : tokens = [] ∨ ∃ t ∈ tokens, t.isEnd)
    (n : Nat) : ReadsInside tokens n where
  start := Cursor.standsAt_start tokens n
  token c i hne hc := ⟨hc.le, hc.token (h.resolve_left hne)⟩
  production p hp c i hc := hc.follows (hp.steady c)
  item c c' i it hc hnext := hc.next? hnext
  lastItem c := ⟨Cursor.next?_none, Cursor.next?_eq_none⟩
  fuel c fuel hfuel := ⟨declaration_of_fuel_le hfuel, expression_of_fuel_le hfuel⟩
  items count hcount := by
    have hlen := Cursor.start_length_le tokens n
    rw [parseItems, Cursor.items_of_le hlen hcount]
  finished := Cursor.items_rest (Cursor.start_length_le tokens n)
  itemFaults r hr := ⟨List.cons_ne_nil _ _, Cursor.items_shallow (Cursor.shallow_start tokens n) r hr⟩
  expressionFault f hf := parseExpression_shallow hf
  behind ts eof more more' heof htokens := by
    subst htokens
    have hitems : parseItems (ts ++ eof :: more') n = parseItems (ts ++ eof :: more) n := by
      rw [parseItems_append heof ts more', parseItems_append heof ts more]
    have hstart : Cursor.start (ts ++ eof :: more') n = Cursor.start (ts ++ eof :: more) n := by
      rw [Cursor.start_append heof ts more', Cursor.start_append heof ts more]
    refine ⟨hitems, ?_, ?_⟩
    · rw [parseProgram, parseProgram, hitems]
    · rw [parseExpression, parseExpression, hstart]

/-- Tokens that spell nothing, with an end of source among them. -/
def brokenTokens : List Token :=
  [⟨.symbol .rightParen, ")", 1⟩, ⟨.keyword .var_, "var", 1⟩, Token.endOn 1,
    ⟨.symbol .semicolon, ";", 2⟩]

/-- The first declaration fails at once, the second one at the end of the source. -/
theorem parse_reads_inside_broken :
    (brokenTokens = [] ∨ ∃ t ∈ brokenTokens, t.isEnd) ∧ ReadsInside brokenTokens 0 ∧
    (parseItems brokenTokens 0).1 =
      [.error ⟨⟨.expected .expression, ⟨1, some ")"⟩⟩, []⟩,
        .error ⟨⟨.expected .variableName, ⟨1, none⟩⟩, []⟩] := by
  have h : brokenTokens = [] ∨ ∃ t ∈ brokenTokens, t.isEnd :=
    .inr ⟨Token.endOn 1, by simp [brokenTokens], rfl⟩
  exact ⟨h, parse_reads_inside h 0, rfl⟩

end TreeWalk
