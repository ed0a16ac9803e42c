import TreeWalk.Proofs.Munch
import TreeWalk.Proofs.Rereading
import TreeWalk.Proofs.Program

/-!
# Two sources in one

Two sources with a line end between them are read as one after the other. No lexeme of the first one
can go on past the line end, for only strings contain one, and a string that is complete ends where
it ends (`Lexer.Cuts.join`). The tokens of the second source stand that many lines further down
(`Renaming.lowering`). A derivation does not look at what follows the phrase, so declarations can be
put one after the other (`IsProgram.append`), and the joined source is read as both programs up to
references (`parseProgram_join`).
-/

namespace TreeWalk

/-- Moves everything down by `k` lines; line zero stands for no line and stays. -/
def Renaming.lowering (k : Nat) : Renaming :=
  ⟨id, fun line => if line = 0 then 0 else line + k, rfl⟩

namespace Lexer

/-! ### Lexemes before a line end -/

/-- Only the line end itself and strings contain a line end. -/
theorem Lexeme.of_newline {bytes : List UInt8} {c : LexemeClass} (h : Lexeme bytes c)
    (hmem : 10 ∈ bytes) :
    bytes = [10] ∨ ∃ content, bytes = 34 :: (content ++ [34]) ∧ 34 ∉ content := by
  cases h with
  | blank => exact .inl (by rw [List.mem_singleton.1 hmem])
  | comment htext => exact absurd (by simpa using hmem) htext
  | @symbol s _ hs =>
    have hchar : charOf 10 ∈ s.spelling := hs ▸ List.mem_map_of_mem hmem
    have hnone : charOf 10 ∉ s.spelling := by cases s <;> decide
    exact absurd hchar hnone
  | whole _ hwhole => exact absurd (hwhole 10 hmem) (by decide)
  | decimal _ hwhole _ hfraction =>
    rcases List.mem_append.1 hmem with hmem | hmem
    · exact absurd (hwhole 10 hmem) (by decide)
    · exact absurd (hfraction 10 (by simpa using hmem)) (by decide)
  | word hb hmore =>
    rcases List.mem_cons.1 hmem with rfl | hmem
    · exact absurd hb (by decide)
    · exact absurd (hmore 10 hmem) (by decide)
  | string hcontent => exact .inr ⟨_, rfl, hcontent⟩

/-- A string is not the beginning of a longer one. -/
theorem length_of_string {lexeme content : List UInt8} {c : LexemeClass} (h : Lexeme lexeme c)
    (hcontent : 34 ∉ content) (hstarts : lexeme <+: 34 :: (content ++ [34])) :
    (34 :: (content ++ [34])).length ≤ lexeme.length := by
  rcases lexeme with _ | ⟨b, more⟩
  · exact absurd rfl h.ne_nil
  obtain ⟨rfl, hmore⟩ := List.cons_prefix_cons.1 hstarts
  obtain ⟨content', rfl, -, -⟩ : ∃ content', more = content' ++ [34] ∧ 34 ∉ content' ∧ c =
      .string content' := h.allowed
  rcases List.prefix_concat_iff.1 hmore with heq | hstarts'
  · apply Nat.le_of_eq
    rw [heq]
  · have hmem : 34 ∈ content := hstarts'.subset (by simp)
    exact absurd hmem hcontent

/-- A lexeme ends before a line end that is ahead, or is the line end itself, or is a string that goes
on behind it. -/
theorem Lexeme.starts_before_newline {source more bytes : List UInt8} {c : LexemeClass}
    (h : Lexeme bytes c) (hstarts : bytes <+: source ++ 10 :: more) :
    bytes <+: source ∨ bytes = [10] ∧ source = [] ∨
      source <+: bytes ∧ ∃ content, bytes = 34 :: (content ++ [34]) ∧ 34 ∉ content := by
  rcases List.prefix_or_prefix_of_prefix hstarts (List.prefix_append source _) with hle | hle
  · exact .inl hle
  obtain ⟨after, rfl⟩ := hle
  rcases after with _ | ⟨b, after⟩
  · exact .inl (by simp)
  obtain rfl : b = 10 :=
    (List.cons_prefix_cons.1 ((List.prefix_append_right_inj source).1 hstarts)).1
  rcases h.of_newline (by simp) with heq | hstring
  · refine .inr (.inl ⟨heq, ?_⟩)
    have hlength := congrArg List.length heq
    rw [List.length_append, List.length_cons, List.length_singleton] at hlength
    exact List.length_eq_zero_iff.1 (by omega)
  · exact .inr (.inr ⟨List.prefix_append _ _, hstring⟩)

theorem Longest.before_newline {source lexeme : List UInt8} {c : LexemeClass}
    (h : Longest source lexeme c) (more : List UInt8) :
    Longest (source ++ 10 :: more) lexeme c where
  isLexeme := h.isLexeme
  starts := h.starts.trans (List.prefix_append _ _)
  longest := by
    intro lexeme' c' hlexeme' hstarts'
    rcases hlexeme'.starts_before_newline hstarts' with
      hle | ⟨rfl, -⟩ | ⟨hsource, content, rfl, hcontent⟩
    · exact h.longest hlexeme' hle
    · exact List.length_pos_iff.2 h.isLexeme.ne_nil
    · exact length_of_string h.isLexeme hcontent (h.starts.trans hsource)

/-- Behind the line end a lexeme may start, but none that starts before it. -/
theorem NoLexeme.before_newline {source : List UInt8} {b : UInt8} (h : NoLexeme source)
    (hhead : source.head? = some b) (hb : b ≠ 34) (more : List UInt8) :
    NoLexeme (source ++ 10 :: more) := by
  intro lexeme c hlexeme hstarts
  rcases hlexeme.starts_before_newline hstarts with hle | ⟨-, rfl⟩ | ⟨hsource, content, rfl, -⟩
  · exact h lexeme c hlexeme hle
  · cases hhead
  · obtain ⟨rest, rfl⟩ := List.head?_eq_some_iff.1 hhead
    exact hb (List.cons_prefix_cons.1 hsource).1

theorem Takes.before_newline {before source taken : List UInt8} {item : Item}
    (h : Takes before source taken item) (hitem : ∀ line, item ≠ .fault ⟨.unterminated, line⟩)
    (more : List UInt8) : Takes before (source ++ 10 :: more) taken item := by
  cases h with
  | lexeme hlongest hstands => exact .lexeme (hlongest.before_newline more) hstands
  | unterminated => exact absurd rfl (hitem _)
  | unexpected hnone hb hhead htaken =>
    refine .unexpected (hnone.before_newline hhead hb more) hb ?_ htaken
    rw [List.head?_append, hhead]
    rfl

theorem takes_newline (before more : List UInt8) : Takes before (10 :: more) [10] .skipped := by
  have hblank : IsBlank 10 := by decide
  obtain ⟨taken, hsource, -, htakes⟩ := @cut_blank before more _ 10 hblank rfl
  obtain rfl : [10] = taken := List.append_cancel_right hsource
  exact htakes

/-- The cuts of a source in which every string is closed, the line end, and the cuts of what follows
it. -/
theorem Cuts.join {before source more : List UInt8} {spans spans' : List Span}
    (h : Cuts before source spans)
    (hspans : ∀ span ∈ spans, ∀ line, span.item ≠ .fault ⟨.unterminated, line⟩)
    (hmore : Cuts (before ++ source ++ [10]) more spans') :
    Cuts before (source ++ 10 :: more) (spans ++ ⟨[10], .skipped⟩ :: spans') := by
  induction h with
  | done =>
    rw [List.append_nil] at hmore
    exact .take (takes_newline _ more) rfl hmore
  | @take before source taken rest item spans htakes hsource hrest ih =>
    obtain ⟨hspan, hspans⟩ := List.forall_mem_cons.1 hspans
    refine .take (htakes.before_newline hspan more) ?_ (ih hspans ?_)
    · rw [hsource, List.append_assoc]
    · rwa [hsource, ← List.append_assoc] at hmore

/-! ### Lines further down -/

def Item.lowered (k : Nat) : Item → Item
  | .skipped => .skipped
  | .token t => .token (t.rename (.lowering k))
  | .fault f => .fault { f with line := f.line + k }

def Span.lowered (k : Nat) (span : Span) : Span :=
  ⟨span.bytes, span.item.lowered k⟩

theorem Stands.lowered {bytes : List UInt8} {line : Nat} {c : LexemeClass} {item : Item}
    (h : Stands bytes (1 + line) c item) (k : Nat) :
    Stands bytes (1 + (line + k)) c (item.lowered k) := by
  have hline : (Renaming.lowering k).line (1 + line) = 1 + (line + k) := by
    simp only [Renaming.lowering]
    rw [if_neg (by omega), Nat.add_assoc]
  cases h with
  | skipped => exact .skipped
  | symbol htext => exact hline ▸ .symbol htext
  | number htext => exact hline ▸ .number htext
  | keyword htext => exact hline ▸ .keyword htext
  | name htext hname => exact hline ▸ .name htext hname
  | string hcontent htext => exact hline ▸ .string hcontent htext
  | notText hcontent => exact Nat.add_assoc 1 line k ▸ .notText hcontent

theorem Takes.lowered {before before' source taken : List UInt8} {item : Item} {k : Nat}
    (h : Takes before source taken item) (hk : newlines before' = newlines before + k) :
    Takes before' source taken (item.lowered k) := by
  have hline : newlines (before' ++ taken) = newlines (before ++ taken) + k := by
    rw [newlines_append, newlines_append, hk]
    omega
  cases h with
  | lexeme hlongest hstands =>
    refine .lexeme hlongest ?_
    rw [hline]
    exact hstands.lowered k
  | unterminated hnone hquote htaken =>
    have htakes : Takes before' source taken _ := .unterminated hnone hquote htaken
    rwa [hline, ← Nat.add_assoc] at htakes
  | unexpected hnone hb hhead htaken =>
    have htakes : Takes before' source taken _ := .unexpected hnone hb hhead htaken
    rwa [hline, ← Nat.add_assoc] at htakes

theorem Cuts.lowered {before before' source : List UInt8} {spans : List Span} {k : Nat}
    (h : Cuts before source spans) (hk : newlines before' = newlines before + k) :
    Cuts before' source (spans.map (Span.lowered k)) := by
  induction h generalizing before' with
  | done => exact .done
  | @take before source taken rest item spans htakes hsource hrest ih =>
    have hk' : newlines (before' ++ taken) = newlines (before ++ taken) + k := by
      rw [newlines_append, newlines_append, hk]
      omega
    exact .take (htakes.lowered hk) hsource (ih hk')

/-! ### Tokens -/

def Span.token? (span : Span) : Option Token :=
  match span.item with
  | .token t => some t
  | _ => none

theorem Span.token?_eq_some {span : Span} {t : Token} :
    span.token? = some t ↔ span.item = .token t := by
  unfold Span.token?
  split <;> simp_all

theorem firstFault_eq_ok {items : List (Except LexFault Token)} {ts : List Token} :
    firstFault items = .ok ts ↔ items = ts.map .ok := by
  induction items generalizing ts with
  | nil =>
    rw [firstFault]
    constructor
    · rintro h
      cases h
      rfl
    · intro h
      rw [List.map_eq_nil_iff.1 h.symm]
  | cons item items ih =>
    rcases item with f | t
    · rw [firstFault]
      constructor
      · exact nofun
      · intro h
        rcases ts with _ | ⟨t, ts⟩ <;> cases h
    · rw [firstFault]
      constructor
      · intro h
        cases hrest : firstFault items with
        | error f =>
          rw [hrest] at h
          cases h
        | ok ts' =>
          rw [hrest] at h
          cases h
          rw [ih.1 hrest]
          rfl
      · intro h
        rcases ts with _ | ⟨t', ts⟩
        · cases h
        · obtain ⟨ht, hrest⟩ := List.cons.inj h
          cases ht
          rw [ih.2 hrest]
          rfl

theorem filterMap_result? {spans : List Span} (h : ∀ span ∈ spans, ∀ f, span.item ≠ .fault f) :
    spans.filterMap Span.result? = (spans.filterMap Span.token?).map .ok := by
  induction spans with
  | nil => rfl
  | cons span spans ih =>
    obtain ⟨hspan, hspans⟩ := List.forall_mem_cons.1 h
    obtain ⟨bytes, item⟩ := span
    rw [List.filterMap_cons, List.filterMap_cons, ih hspans]
    cases item with
    | skipped => rfl
    | token t => rfl
    | fault f => exact absurd rfl (hspan f)

/-- A source has tokens if it is cut without faults. -/
theorem tokens_eq_ok {source : List UInt8} {ts : List Token} :
    tokens source = .ok ts ↔ ∃ spans, Cuts [] source spans ∧
      (∀ span ∈ spans, ∀ f, span.item ≠ .fault f) ∧
      ts = spans.filterMap Span.token? ++ [Token.endOn (1 + newlines source)] := by
  obtain ⟨spans, hcuts, -⟩ := @cuts_scanFrom _ [] source (Nat.le_refl _)
  rw [tokens, firstFault_eq_ok, hcuts.scan_eq]
  constructor
  · intro hts
    have hnone : ∀ span ∈ spans, ∀ f, span.item ≠ .fault f := by
      intro span hspan f hf
      have hmem : Except.error f ∈ ts.map Except.ok := by
        rw [← hts]
        exact List.mem_append_left _ (List.mem_filterMap.2 ⟨span, hspan, Span.result?_eq_error.2 hf⟩)
      obtain ⟨t, -, ht⟩ := List.mem_map.1 hmem
      cases ht
    refine ⟨spans, hcuts, hnone, ?_⟩
    rw [filterMap_result? hnone] at hts
    have hok : ∀ t t' : Token, (Except.ok t : Except LexFault Token) = .ok t' → t = t' :=
      fun _ _ h => Except.ok.inj h
    refine (List.map_inj_right hok).1 ?_
    rw [← hts, List.map_append]
    rfl
  · rintro ⟨spans', hcuts', hnone, rfl⟩
    cases hcuts.unique hcuts'
    rw [filterMap_result? hnone, List.map_append]
    rfl

/-- The last token of a source, and no other, is its end. -/
theorem terminated_tokens {source : List UInt8} {ts : List Token} (h : tokens source = .ok ts) :
    ∃ ts', ts = ts' ++ [Token.endOn (1 + newlines source)] ∧
      Terminated ts' (Token.endOn (1 + newlines source)) := by
  obtain ⟨spans, hcuts, -, rfl⟩ := tokens_eq_ok.1 h
  refine ⟨_, rfl, rfl, ?_⟩
  intro t ht
  obtain ⟨span, hspan, hitem⟩ := List.mem_filterMap.1 ht
  obtain ⟨_, _, htakes⟩ := hcuts.takes_of_mem hspan
  rw [Span.token?_eq_some.1 hitem] at htakes
  exact htakes.token.2

theorem filterMap_lowered (k : Nat) (spans : List Span) :
    (spans.map (Span.lowered k)).filterMap Span.token? =
      (spans.filterMap Span.token?).map (Token.rename (.lowering k)) := by
  rw [List.filterMap_map, List.map_filterMap]
  congr 1
  funext span
  obtain ⟨bytes, item⟩ := span
  cases item <;> rfl

/-- The tokens of two sources with a line end between them. -/
theorem tokens_join {a b : List UInt8} {ta tb : List Token} {eof : Token}
    (ha : tokens a = .ok (ta ++ [eof])) (hb : tokens b = .ok tb) :
    tokens (a ++ 10 :: b) =
      .ok (ta ++ tb.map (Token.rename (.lowering (newlines a + 1)))) := by
  obtain ⟨spansA, hcutsA, hnoneA, hta⟩ := tokens_eq_ok.1 ha
  obtain ⟨spansB, hcutsB, hnoneB, rfl⟩ := tokens_eq_ok.1 hb
  obtain ⟨rfl, -⟩ := List.append_inj' hta rfl
  have hk : newlines ([] ++ a ++ [10]) = newlines [] + (newlines a + 1) := by
    rw [newlines_append, List.nil_append]
    simp [newlines]
  have hclosed : ∀ span ∈ spansA, ∀ line, span.item ≠ .fault ⟨.unterminated, line⟩ :=
    fun span hspan line => hnoneA span hspan _
  have hcuts := hcutsA.join hclosed (hcutsB.lowered hk)
  refine tokens_eq_ok.2 ⟨_, hcuts, ?_, ?_⟩
  · intro span hspan f hf
    rcases List.mem_append.1 hspan with hspan | hspan
    · exact hnoneA span hspan f hf
    · rcases List.mem_cons.1 hspan with rfl | hspan
      · cases hf
      · obtain ⟨⟨bytes, item⟩, hmem, rfl⟩ := List.mem_map.1 hspan
        cases item with
        | fault f' => exact hnoneB ⟨bytes, .fault f'⟩ hmem f' rfl
        | _ => cases hf
  · have hend : (Token.endOn (1 + newlines b)).rename (.lowering (newlines a + 1)) =
        Token.endOn (1 + newlines (a ++ 10 :: b)) := by
      have hline : (Renaming.lowering (newlines a + 1)).line (1 + newlines b) =
          1 + newlines (a ++ 10 :: b) := by
        simp only [Renaming.lowering, newlines_append]
        rw [if_neg (by omega), newlines, newlines, newlines, List.countP_cons_of_pos (by rfl)]
        omega
      rw [← hline]
      rfl
    rw [List.map_append, List.map_singleton, hend, List.filterMap_append, List.filterMap_cons,
      filterMap_lowered, List.append_assoc]
    rfl

end Lexer

/-! ### Derivations -/

/-- A derivation does not look past the phrase. -/
theorem Derives.extend {rule : Rule} {l : Bool} {ts rest : List Token} {tree : rule.Tree}
    (h : Derives rule l ts tree rest) (more : List Token) :
    Derives rule l (ts ++ more) tree (rest ++ more) := by
  induction h with
  | simple _ ih => exact .simple ih
  | assign hn he _ ih => exact .assign hn he ih
  | set _ he _ ih ih' => exact .set ih he ih'
  | noChoice _ ih => exact .noChoice ih
  | choice _ hq _ hs _ ih ih' ih'' => exact .choice ih hq ih' hs ih''
  | tightest _ ih => exact .tightest ih
  | level _ _ ih ih' => exact .level ih ih'
  | noOperand => exact .noOperand
  | operand ho _ _ ih ih' => exact .operand ho ih ih'
  | before ho _ ih => exact .before ho ih
  | after _ ho ih => exact .after ih ho
  | bare _ ih => exact .bare ih
  | call _ _ ih ih' => exact .call ih ih'
  | noSuffix => exact .noSuffix
  | callSuffix ho _ _ ih ih' => exact .callSuffix ho ih ih'
  | indexSuffix hb _ hc _ ih ih' => exact .indexSuffix hb ih hc ih'
  | getSuffix hd hn _ ih => exact .getSuffix hd hn ih
  | falseLiteral h => exact .falseLiteral h
  | trueLiteral h => exact .trueLiteral h
  | nilLiteral h => exact .nilLiteral h
  | number h => exact .number h
  | string h => exact .string h
  | this h => exact .this h
  | name h => exact .name h
  | group ho _ hc ih => exact .group ho ih hc
  | array hb _ ih => exact .array hb ih
  | lambda hk ho _ ih => exact .lambda hk ho ih
  | noArguments hc => exact .noArguments hc
  | someArguments _ hc ih => exact .someArguments ih hc
  | lastArgument _ ih => exact .lastArgument ih
  | nextArgument _ hc _ ih ih' => exact .nextArgument ih hc ih'
  | lastParameter hn => exact .lastParameter hn
  | nextParameter hn hc _ ih => exact .nextParameter hn hc ih
  | noParameters hc ho _ ih => exact .noParameters hc ho ih
  | someParameters _ hc ho _ ih ih' => exact .someParameters ih hc ho ih'
  | function hn ho _ ih => exact .function hn ho ih
  | block _ hc ih => exact .block ih hc
  | noDeclaration => exact .noDeclaration
  | nextDeclaration _ _ ih ih' => exact .nextDeclaration ih ih'
  | classDecl hk hn ho _ hc ih => exact .classDecl hk hn ho ih hc
  | functionDecl hk _ ih => exact .functionDecl hk ih
  | varDecl hk _ ih => exact .varDecl hk ih
  | statementDecl _ ih => exact .statementDecl ih
  | noMethod => exact .noMethod
  | nextMethod _ _ ih ih' => exact .nextMethod ih ih'
  | varTail _ hs ih => exact .varTail ih hs
  | lastName hn => exact .lastName hn
  | lastValue hn he _ ih => exact .lastValue hn he ih
  | nextName hn hc _ ih => exact .nextName hn hc ih
  | nextValue hn he _ hc _ ih ih' => exact .nextValue hn he ih hc ih'
  | noStart hs => exact .noStart hs
  | varStart hk _ ih => exact .varStart hk ih
  | expressionStart _ hs ih => exact .expressionStart ih hs
  | absent hc => exact .absent hc
  | present _ ih => exact .present ih
  | forStatement hk ho _ _ hm _ hp _ ihs ihc ihi ihb =>
    exact .forStatement hk ho ihs ihc hm ihi hp ihb
  | ifStatement hk ho _ hp _ ih ih' => exact .ifStatement hk ho ih hp ih'
  | elseStatement hk ho _ hp _ he _ ihc iht ihf => exact .elseStatement hk ho ihc hp iht he ihf
  | whileStatement hk ho _ hp _ ih ih' => exact .whileStatement hk ho ih hp ih'
  | returnStatement hk _ hs ih => exact .returnStatement hk ih hs
  | breakStatement hk hs => exact .breakStatement hk hs
  | continueStatement hk hs => exact .continueStatement hk hs
  | blockStatement ho _ ih => exact .blockStatement ho ih
  | printStatement hk _ hs ih => exact .printStatement hk ih hs
  | expressionStatement _ hs ih => exact .expressionStatement ih hs

theorem Derives.declarations_append {l : Bool} {ts ts' rest : List Token} {ss ss' : List Stmt}
    (h : Derives .declarations l ts ss ts') (h' : Derives .declarations l ts' ss' rest) :
    Derives .declarations l ts (ss ++ ss') rest := by
  induction ss generalizing ts with
  | nil =>
    cases h
    exact h'
  | cons s ss ih =>
    cases h with
    | nextDeclaration h hm => exact .nextDeclaration h (ih hm)

/-- One program after the other is a program. -/
theorem IsProgram.append {ts ts' : List Token} {p p' : List Stmt} (h : IsProgram ts p)
    (h' : IsProgram ts' p') : IsProgram (ts ++ ts') (p ++ p') :=
  (h.extend ts').declarations_append h'

/-! ### Programs -/

theorem eraseStmts_append (ss ss' : List Stmt) :
    eraseStmts (ss ++ ss') = eraseStmts ss ++ eraseStmts ss' := by
  induction ss with
  | nil => rw [eraseStmts]; rfl
  | cons s ss ih => rw [List.cons_append, eraseStmts, eraseStmts, ih, List.cons_append]

/-- Two sources that are programs are, with a line end between them, both programs in one; the
references may be others. -/
theorem parseProgram_join {a b : List UInt8} {ta tb : List Token} {n n' : Nat} {p p' : List Stmt}
    (ha : Lexer.tokens a = .ok ta) (hb : Lexer.tokens b = .ok tb)
    (hp : (parseProgram ta n).1 = .ok p) (hp' : (parseProgram tb n').1 = .ok p') (n'' : Nat) :
    ∃ ts q, Lexer.tokens (a ++ 10 :: b) = .ok ts ∧ (parseProgram ts n'').1 = .ok q ∧
      eraseStmts q =
        eraseStmts (p ++ renameStmts (.lowering (Lexer.newlines a + 1)) p') := by
  obtain ⟨ta', rfl, hta⟩ := Lexer.terminated_tokens ha
  obtain ⟨tb', rfl, htb⟩ := Lexer.terminated_tokens hb
  have hjoin := Lexer.tokens_join ha hb
  generalize Lexer.newlines a + 1 = k at hjoin
  have hcounts : (Renaming.lowering k).Counts := fun _ => rfl
  have hfind : (tb' ++ [Token.endOn (1 + Lexer.newlines b)]).find? Token.isEnd = none →
      (Renaming.lowering k).line 1 = 1 := by
    intro hnone
    have hend := List.find?_eq_none.1 hnone (Token.endOn (1 + Lexer.newlines b)) (by simp)
    exact absurd htb.isEnd hend
  have hlower := parseProgram_rename hcounts hfind n'
  rw [List.map_append, List.map_singleton] at hlower hjoin
  have htb' : Terminated (tb'.map (Token.rename (.lowering k)))
      ((Token.endOn (1 + Lexer.newlines b)).rename (.lowering k)) := by
    refine ⟨rfl, ?_⟩
    intro t ht
    obtain ⟨t', ht', rfl⟩ := List.mem_map.1 ht
    exact htb.others t' ht'
  have hprogram : IsProgram ta' (eraseStmts p) := isProgram_of_parseProgram hta hp
  have hprogram' : IsProgram (tb'.map (Token.rename (.lowering k)))
      (eraseStmts (renameStmts (.lowering k) p')) := by
    refine isProgram_of_parseProgram htb' (n := n') ?_
    have hfst := congrArg Prod.fst hlower
    rw [hp'] at hfst
    exact hfst
  have hall : Terminated (ta' ++ tb'.map (Token.rename (.lowering k)))
      ((Token.endOn (1 + Lexer.newlines b)).rename (.lowering k)) :=
    ⟨rfl, List.forall_mem_append.2 ⟨hta.others, htb'.others⟩⟩
  obtain ⟨q, hq, herase⟩ := (hprogram.append hprogram').parseProgram hall n''
  rw [List.append_assoc] at hq
  exact ⟨_, q, hjoin, hq, by rw [herase, eraseStmts_append]⟩

end TreeWalk
