import TreeWalk.Proofs.Acceptance

/-!
# Programs

`parseProgram` reads one declaration after the other. A fault in one of them makes the whole list no
program, so a program is read exactly where the tokens are declarations of the grammar up to the end
of the source. Reading is a function, so the grammar is unambiguous.
-/

namespace TreeWalk

open Production

variable {c c' : Cursor} {ss : List Stmt}

theorem Cursor.to_self {ts : List Token} {n : Nat} (hrest : c.rest = ts)
    (hn : c.nextReference = n) : c.to ts n = c := by
  subst hrest hn
  rfl

/-! ### One declaration -/

/-- A declaration that was read without a fault is a phrase, and reading goes on behind it. -/
theorem Cursor.next?_ok {s : Stmt} (h : c.next? = some (.ok s, c')) (hc : c.Clean 0) :
    (∃ short, Reads 0 (.declaration short) c s.erase s.references c') ∧ c'.Clean 0 := by
  unfold Cursor.next? at h
  split at h
  · cases h
  · have hreply := Option.some.inj h
    split at hreply
    · next s' c₁ hd =>
      split at hreply
      · next hfaults =>
        cases hreply
        have hc' : c'.Clean 0 := ⟨hfaults, ((allSteady _).declaration.of_done hd).loops.trans hc.2⟩
        exact ⟨(allRead _).declaration hd hc', hc'⟩
      · cases hreply
    · cases hreply

theorem Cursor.next?_none (h : c.next? = none) : c.rest = [] := by
  unfold Cursor.next? at h
  split at h
  · next hrest => exact List.isEmpty_iff.1 hrest
  · cases h

/-- A declaration is read without a fault if no `else` follows. -/
theorem Derives.next? {short : Bool} {ts ts' : List Token} {s : Stmt}
    (d : Derives (.declaration short) false ts s ts')
    (helse : Stops (Token.isKeyword .else_) ts') (hc : c.Clean 0) (n : Nat) :
    ∃ s' n', (c.to ts n).next? = some (.ok s', c.to ts' n') ∧ s'.erase = s := by
  have hstops := helse.continuesDeclaration short
  have hloops : decide (0 < c.loops) = false := by rw [hc.2]; rfl
  have hfuel : 16 * ts.length + (Rule.declaration short).rank ≤ (c.to ts n).fuel := by
    show 16 * ts.length + 14 ≤ 16 * (ts.length + 1)
    omega
  obtain ⟨s', n', hread, hs'⟩ := d.accepted trivial hloops hstops hfuel n
  refine ⟨s', n', ?_, hs'⟩
  have hne : (c.to ts n).rest.isEmpty = false := by
    obtain ⟨t, rest, rfl, -⟩ := d.starts
    rfl
  have hfaults : (c.to ts' n').faults = [] := hc.1
  rw [Cursor.next?, hne, hread]
  simp only [Bool.false_eq_true, if_false, hfaults]

/-- Whatever is read, no reference is given out twice. -/
theorem Cursor.next?_reference {item : Except Rejection Stmt} (h : c.next? = some (item, c')) :
    c.nextReference ≤ c'.nextReference := by
  have hsteady := (allSteady c.fuel).declaration c
  unfold Cursor.next? at h
  split at h
  · cases h
  · have hreply := Option.some.inj h
    split at hreply
    · next hd =>
      rw [hd] at hsteady
      split at hreply <;> cases hreply <;> exact hsteady.reference
    · next hd =>
      rw [hd] at hsteady
      cases hreply
      exact hsteady.reference

/-! ### All of them -/

theorem collect_cons_ok {item : Except Rejection Stmt} {items : List (Except Rejection Stmt)}
    (h : collect (item :: items) = .ok ss) :
    ∃ s ss', item = .ok s ∧ collect items = .ok ss' ∧ ss = s :: ss' := by
  cases item with
  | ok s =>
    rw [collect] at h
    cases hcollect : collect items with
    | ok ss' =>
      rw [hcollect] at h
      cases h
      exact ⟨s, ss', rfl, rfl, rfl⟩
    | error r =>
      rw [hcollect] at h
      cases h
  | error r =>
    rw [collect] at h
    split at h <;> cases h

theorem Cursor.items_reference (fuel : Nat) (c : Cursor) :
    c.nextReference ≤ (c.items fuel).2.nextReference := by
  induction fuel generalizing c with
  | zero => exact Nat.le_refl _
  | succ fuel ih =>
    rw [Cursor.items]
    split
    · exact Nat.le_refl _
    · next hnext => exact Nat.le_trans (Cursor.next?_reference hnext) (ih _)

/-- If all declarations up to the end are read without a fault, they are phrases, and their
references are new. Every declaration takes a token, so as many as there are tokens reach the end. -/
theorem Cursor.reads_of_items {fuel : Nat} (hc : c.Clean 0) (hfuel : c.rest.length ≤ fuel)
    (h : collect (c.items fuel).1 = .ok ss) :
    Derives .declarations false c.rest (eraseStmts ss) [] ∧
      Between c.nextReference (referencesStmts ss) (c.items fuel).2.nextReference := by
  induction fuel generalizing c ss with
  | zero =>
    cases h
    rw [List.eq_nil_of_length_eq_zero (Nat.le_zero.1 hfuel)]
    exact ⟨.noDeclaration, .none (Nat.le_refl _)⟩
  | succ fuel ih =>
    rw [Cursor.items] at h ⊢
    split at h
    · next hnext =>
      cases h
      rw [Cursor.next?_none hnext]
      exact ⟨.noDeclaration, .none (Nat.le_refl _)⟩
    · next item c₁ hnext =>
      obtain ⟨s, ss', rfl, hss', rfl⟩ := collect_cons_ok h
      obtain ⟨⟨short, hread⟩, hc₁⟩ := Cursor.next?_ok hnext hc
      have hlen := hread.derives.length_lt rfl
      obtain ⟨hrest, hrefs⟩ := ih hc₁ (by omega) hss'
      exact ⟨.nextDeclaration hread.derives hrest, hread.numbered.append hrefs⟩

/-- Declarations up to the end are read without a fault. -/
theorem Derives.items {ts : List Token} {p : List Stmt} (d : Derives .declarations false ts p [])
    (hc : c.Clean 0) (n fuel : Nat) (hfuel : ts.length ≤ fuel) :
    ∃ ss, collect ((c.to ts n).items fuel).1 = .ok ss ∧ eraseStmts ss = p := by
  induction fuel generalizing ts p n with
  | zero =>
    cases d with
    | noDeclaration => exact ⟨[], rfl, by rw [eraseStmts]⟩
    | nextDeclaration d =>
      have hlen := d.length_lt rfl
      omega
  | succ fuel ih =>
    cases d with
    | noDeclaration => exact ⟨[], rfl, by rw [eraseStmts]⟩
    | nextDeclaration d dm =>
      obtain ⟨s', n', hnext, rfl⟩ := d.next? (dm.stops_of_declarations nofun) hc n
      have hlen := d.length_lt rfl
      obtain ⟨ss, hss, rfl⟩ := ih dm n' (by omega)
      refine ⟨s' :: ss, ?_, by rw [eraseStmts]⟩
      rw [Cursor.items, hnext]
      simp only [collect, hss]
      rfl

/-! ### Programs -/

/-- The end of the source is the last token and no other. -/
structure Terminated (ts : List Token) (eof : Token) : Prop where
  isEnd : eof.isEnd
  others : ∀ t ∈ ts, t.isEnd = false

theorem Terminated.start {ts : List Token} {eof : Token} (h : Terminated ts eof) (n : Nat) :
    (Cursor.start (ts ++ [eof]) n).rest = ts := by
  show (ts ++ [eof]).takeWhile (fun t => !t.isEnd) = ts
  rw [List.takeWhile_append_of_pos fun t ht => by rw [h.others t ht]; rfl]
  simp [h.isEnd]

theorem clean_start (ts : List Token) (n : Nat) : (Cursor.start ts n).Clean 0 :=
  ⟨rfl, rfl⟩

theorem isProgram_of_parseProgram {ts : List Token} {eof : Token} (h : Terminated ts eof) {n : Nat}
    (hss : (parseProgram (ts ++ [eof]) n).1 = .ok ss) : IsProgram ts (eraseStmts ss) := by
  have hrest := h.start n
  have hlen : (Cursor.start (ts ++ [eof]) n).rest.length ≤ (ts ++ [eof]).length := by
    rw [hrest]
    simp
  have hreads := (Cursor.reads_of_items (clean_start _ n) hlen hss).1
  rwa [hrest] at hreads

theorem IsProgram.parseProgram {ts : List Token} {eof : Token} {p : List Stmt}
    (hp : IsProgram ts p) (h : Terminated ts eof) (n : Nat) :
    ∃ ss, (parseProgram (ts ++ [eof]) n).1 = .ok ss ∧ eraseStmts ss = p := by
  have hitems := Derives.items hp (clean_start (ts ++ [eof]) n) n (ts ++ [eof]).length (by simp)
  have hstart : (Cursor.start (ts ++ [eof]) n).to ts n = _ := Cursor.to_self (h.start n) rfl
  rwa [hstart] at hitems

/-- The references of a program are given out from `n` on. -/
theorem references_of_parseProgram {ts : List Token} {n : Nat}
    (h : (parseProgram ts n).1 = .ok ss) :
    Between n (referencesStmts ss) (parseProgram ts n).2 := by
  have hlen : (Cursor.start ts n).rest.length ≤ ts.length := (List.takeWhile_sublist _).length_le
  exact (Cursor.reads_of_items (clean_start ts n) hlen h).2

theorem le_parseProgram (ts : List Token) (n : Nat) : n ≤ (parseProgram ts n).2 :=
  Cursor.items_reference ts.length (Cursor.start ts n)

/-- Tokens that end the source once, at the end, are read as a program exactly if they are one in the
grammar. What is read is the tree of the derivation up to references, the grammar has no other
tree for the tokens, and all other tokens are rejected. -/
theorem parseProgram_iff_isProgram {ts : List Token} {eof : Token} (h : Terminated ts eof) (n : Nat) :
    (∀ p, IsProgram ts p ↔
      ∃ ss, (parseProgram (ts ++ [eof]) n).1 = .ok ss ∧ eraseStmts ss = p) ∧
    (∀ p p', IsProgram ts p → IsProgram ts p' → p = p') ∧
    ((∃ r, (parseProgram (ts ++ [eof]) n).1 = .error r) ↔ ∀ p, ¬IsProgram ts p) := by
  have hiff : ∀ p, IsProgram ts p ↔
      ∃ ss, (parseProgram (ts ++ [eof]) n).1 = .ok ss ∧ eraseStmts ss = p := by
    intro p
    constructor
    · intro hp
      exact hp.parseProgram h n
    · rintro ⟨ss, hss, rfl⟩
      exact isProgram_of_parseProgram h hss
  refine ⟨hiff, fun p p' hp hp' => ?_, ⟨?_, fun hnone => ?_⟩⟩
  · obtain ⟨ss, hss, rfl⟩ := (hiff p).1 hp
    obtain ⟨ss', hss', rfl⟩ := (hiff p').1 hp'
    rw [hss] at hss'
    cases hss'
    rfl
  · rintro ⟨r, hr⟩ p hp
    obtain ⟨ss, hss, -⟩ := (hiff p).1 hp
    rw [hr] at hss
    cases hss
  · cases hparse : (parseProgram (ts ++ [eof]) n).1 with
    | error r => exact ⟨r, rfl⟩
    | ok ss => exact absurd ((hiff _).2 ⟨ss, hparse, rfl⟩) (hnone _)

/-- The tokens of `if (a) if (a) return; else return;`. -/
def danglingElse : List Token :=
  [⟨.keyword .if_, "if", 1⟩, ⟨.symbol .leftParen, "(", 1⟩, ⟨.identifier, "a", 1⟩,
    ⟨.symbol .rightParen, ")", 1⟩, ⟨.keyword .if_, "if", 1⟩, ⟨.symbol .leftParen, "(", 1⟩,
    ⟨.identifier, "a", 1⟩, ⟨.symbol .rightParen, ")", 1⟩, ⟨.keyword .return_, "return", 1⟩,
    ⟨.symbol .semicolon, ";", 1⟩, ⟨.keyword .else_, "else", 1⟩, ⟨.keyword .return_, "return", 1⟩,
    ⟨.symbol .semicolon, ";", 1⟩]

/-- The `else` belongs to the inner `if`. -/
def danglingElseTree : Stmt :=
  let condition : Expr := .variable 0 ⟨.identifier, "a", 1⟩
  let returning : Stmt := .returning ⟨.keyword .return_, "return", 1⟩ none
  .conditional condition (.conditional condition returning (some returning)) none

theorem isProgram_danglingElse : IsProgram danglingElse [danglingElseTree] := by
  have hname {ts : List Token} : Derives .expression false (⟨.identifier, "a", 1⟩ :: ts)
      (.variable 0 ⟨.identifier, "a", 1⟩) ts :=
    .simple (.noChoice (Derives.binary_of_call (.call (.name rfl) .noSuffix) _))
  have hreturn {ts : List Token} : Derives (.statement false) false
      (⟨.keyword .return_, "return", 1⟩ :: ⟨.symbol .semicolon, ";", 1⟩ :: ts)
      (.returning ⟨.keyword .return_, "return", 1⟩ none) ts :=
    .returnStatement rfl (.absent rfl) rfl
  have houter : Derives (.statement true) false danglingElse danglingElseTree [] :=
    .ifStatement rfl rfl hname rfl (.elseStatement rfl rfl hname rfl hreturn rfl hreturn)
  exact .nextDeclaration (.statementDecl houter) .noDeclaration

theorem parseProgram_danglingElse : Terminated danglingElse (Token.endOn 1) ∧
    ∃ ss, (parseProgram (danglingElse ++ [Token.endOn 1]) 0).1 = .ok ss ∧
      eraseStmts ss = [danglingElseTree] := by
  have h : Terminated danglingElse (Token.endOn 1) := ⟨rfl, by decide⟩
  exact ⟨h, ((parseProgram_iff_isProgram h 0).1 _).1 isProgram_danglingElse⟩

end TreeWalk
