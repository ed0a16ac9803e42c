import TreeWalk.Proofs.Joining

/-!
# Between the lexemes

Of the lexemes only blanks, comments and strings contain blanks, and a string that is complete ends
where it ends. So a lexeme that is followed by a blank is taken whole and alone, whatever follows the
blank (`Lexer.Lexeme.longest_before_blank`). That is why it does not matter how much space there is
between the lexemes of a source, once there is some: the tokens are the same but for their lines
(`Lexer.tokens_respaced`).
-/

namespace TreeWalk.Lexer

variable {before bytes rest : List UInt8} {b : UInt8} {c : LexemeClass}

/-! ### Lexemes before a blank -/

theorem continuesWord_of_blank (b : UInt8) : IsBlank b → continuesWord b = false := by
  revert b
  exact forall_byte (by decide +kernel)

/-- Only blanks, comments and strings contain blanks. -/
theorem Lexeme.of_blank (h : Lexeme bytes c) (hblank : IsBlank b) (hmem : b ∈ bytes) :
    bytes = [b] ∨ (∃ text, bytes = 47 :: 47 :: text ∧ 10 ∉ text) ∨
      ∃ content, bytes = 34 :: (content ++ [34]) ∧ 34 ∉ content := by
  have hword := continuesWord_of_blank b hblank
  have hdigit : ¬IsDigit b := fun hb => by
    simp [(continuesWord_iff b).2 (.inr hb)] at hword
  cases h with
  | blank => exact .inl (by rw [List.mem_singleton.1 hmem])
  | comment htext => exact .inr (.inl ⟨_, rfl, htext⟩)
  | @symbol s _ hs =>
    have hchar : charOf b ∈ s.spelling := hs ▸ List.mem_map_of_mem hmem
    rcases hblank with hb | hb | hb | hb <;> rw [hb] at hchar
    · exact absurd hchar (by cases s <;> decide)
    · exact absurd hchar (by cases s <;> decide)
    · exact absurd hchar (by cases s <;> decide)
    · exact absurd hchar (by cases s <;> decide)
  | whole _ hwhole => exact absurd (hwhole b hmem) hdigit
  | decimal _ hwhole _ hfraction =>
    rcases List.mem_append.1 hmem with hmem | hmem
    · exact absurd (hwhole b hmem) hdigit
    rcases List.mem_cons.1 hmem with rfl | hmem
    · exact absurd hblank (by decide)
    · exact absurd (hfraction b hmem) hdigit
  | word hb hmore =>
    have hcontinues : continuesWord b := by
      rw [continuesWord_iff]
      rcases List.mem_cons.1 hmem with rfl | hmem
      · exact .inl hb
      · exact hmore b hmem
    rw [hword] at hcontinues
    cases hcontinues
  | string hcontent => exact .inr (.inr ⟨_, rfl, hcontent⟩)

theorem Lexeme.longest_self (h : Lexeme bytes c) : Longest bytes bytes c :=
  ⟨h, List.prefix_refl _, fun _ hstarts => hstarts.length_le⟩

/-- It is enough to look at lexemes that contain the byte behind. -/
theorem Lexeme.longest_before (h : Lexeme bytes c)
    (hbehind : ∀ after c', Lexeme (bytes ++ b :: after) c' → False) :
    Longest (bytes ++ b :: rest) bytes c where
  isLexeme := h
  starts := List.prefix_append _ _
  longest := by
    intro lexeme' c' hlexeme' hstarts'
    rcases List.prefix_or_prefix_of_prefix hstarts' (List.prefix_append bytes _) with hle | hle
    · exact hle.length_le
    obtain ⟨after, rfl⟩ := hle
    rcases after with _ | ⟨d, after⟩
    · simp
    · obtain rfl : d = b :=
        (List.cons_prefix_cons.1 ((List.prefix_append_right_inj bytes).1 hstarts')).1
      exact (hbehind after c' hlexeme').elim

theorem Lexeme.longest_before_blank (h : Lexeme bytes c) (hc : c ≠ .skipped) (hblank : IsBlank b) :
    Longest (bytes ++ b :: rest) bytes c := by
  refine h.longest_before fun after c' hlexeme' => ?_
  obtain ⟨first, more, rfl⟩ := List.exists_cons_of_ne_nil h.ne_nil
  rcases hlexeme'.of_blank hblank (by simp) with heq | ⟨text, heq, htext⟩ | ⟨content, heq, hcontent⟩
  · simp at heq
  · -- a slash before a blank does not start a comment, and a comment is not the lexeme before it
    obtain ⟨rfl, hmore⟩ := List.cons.inj heq
    rcases (h.allowed : Lead.slash.Allows 47 more c) with ⟨rfl, -⟩ | ⟨_, _, _, rfl⟩
    · obtain ⟨rfl, -⟩ := List.cons.inj hmore
      exact absurd hblank (by decide)
    · exact hc rfl
  · have hstarts : first :: more <+: 34 :: (content ++ [34]) := heq ▸ List.prefix_append _ _
    have hlength := length_of_string h hcontent hstarts
    rw [← heq] at hlength
    simp only [List.length_append, List.length_cons] at hlength
    omega

/-! ### Space -/

/-- Blanks, line ends, and comments together with the line ends that end them. -/
inductive Space : List UInt8 → Prop
  | nil : Space []
  | blank {b : UInt8} {rest : List UInt8} (hb : IsBlank b) (hrest : Space rest) : Space (b :: rest)
  | comment {text rest : List UInt8} (htext : 10 ∉ text) (hrest : Space rest) :
    Space (47 :: 47 :: (text ++ 10 :: rest))

/-- Space that a comment does not start. -/
inductive Separator : List UInt8 → Prop
  | mk {b : UInt8} {more : List UInt8} (hb : IsBlank b) (hmore : Space more) : Separator (b :: more)

/-- The lexemes of the tokens in order, with a separator between one and the next. -/
inductive Spaced : List Token → List UInt8 → Prop
  | nil : Spaced [] []
  | last (t : Token) : Spaced [t] (Utf8.encode t.lexeme)
  | next {t t' : Token} {ts : List Token} {separator rest : List UInt8}
      (hseparator : Separator separator) (hrest : Spaced (t' :: ts) rest) :
    Spaced (t :: t' :: ts) (Utf8.encode t.lexeme ++ (separator ++ rest))

/-- Where there is a blank, it is taken alone. -/
theorem takes_blank (before : List UInt8) (hb : IsBlank b) : Takes before (b :: rest) [b] .skipped := by
  obtain ⟨taken, hsource, -, htakes⟩ := @cut_blank before rest _ b hb rfl
  obtain rfl : [b] = taken := List.append_cancel_right hsource
  exact htakes

theorem takes_comment (before : List UInt8) {text : List UInt8} (htext : 10 ∉ text) :
    Takes before (47 :: 47 :: (text ++ 10 :: rest)) (47 :: 47 :: text) .skipped := by
  have hcomment : Lexeme (47 :: 47 :: text) .skipped := .comment htext
  refine .lexeme (hcomment.longest_before ?_) .skipped
  intro after c' hlexeme'
  rcases hlexeme'.of_newline (by simp) with heq | ⟨content, heq, -⟩ <;> simp at heq

/-- Space is taken off in front of anything. -/
theorem Space.cuts {space : List UInt8} {spans : List Span} (h : Space space)
    (hrest : Cuts (before ++ space) rest spans) :
    ∃ skipped, Cuts before (space ++ rest) (skipped ++ spans) ∧
      ∀ span ∈ skipped, span.item = .skipped := by
  induction h generalizing before with
  | nil =>
    rw [List.append_nil] at hrest
    exact ⟨[], hrest, nofun⟩
  | @blank b more hb _ ih =>
    have hmore : Cuts (before ++ [b] ++ more) rest spans := by simpa using hrest
    obtain ⟨skipped, hcuts, hskipped⟩ := ih hmore
    exact ⟨⟨[b], .skipped⟩ :: skipped, .take (takes_blank before hb) rfl hcuts,
      List.forall_mem_cons.2 ⟨rfl, hskipped⟩⟩
  | @comment text more htext _ ih =>
    have hmore : Cuts (before ++ 47 :: 47 :: text ++ [10] ++ more) rest spans := by
      simpa using hrest
    obtain ⟨skipped, hcuts, hskipped⟩ := ih hmore
    have hline : Cuts (before ++ 47 :: 47 :: text) (10 :: (more ++ rest))
        (⟨[10], .skipped⟩ :: (skipped ++ spans)) :=
      .take (takes_newline _ _) rfl hcuts
    refine ⟨⟨47 :: 47 :: text, .skipped⟩ :: ⟨[10], .skipped⟩ :: skipped, ?_, ?_⟩
    · have htakes : Takes before (47 :: 47 :: (text ++ 10 :: (more ++ rest))) (47 :: 47 :: text)
          .skipped := takes_comment before htext
      simpa using Cuts.take htakes (by simp) hline
    · exact List.forall_mem_cons.2 ⟨rfl, List.forall_mem_cons.2 ⟨rfl, hskipped⟩⟩

/-! ### Tokens -/

/-- A token as it is read from its lexeme. -/
def Readable (t : Token) : Prop :=
  ∃ c, Lexeme (Utf8.encode t.lexeme) c ∧ Stands (Utf8.encode t.lexeme) t.line c (.token t)

theorem Stands.onLine {line : Nat} {t : Token} (h : Stands bytes line c (.token t)) (line' : Nat) :
    Stands bytes line' c (.token ⟨t.kind, t.lexeme, line'⟩) := by
  cases h with
  | symbol htext => exact .symbol htext
  | number htext => exact .number htext
  | keyword htext => exact .keyword htext
  | name htext hname => exact .name htext hname
  | string hcontent htext => exact .string hcontent htext

theorem Takes.readable {source taken : List UInt8} {t : Token}
    (h : Takes before source taken (.token t)) : Readable t := by
  have htaken := h.token.1
  have hline := h.line rfl
  cases h with
  | lexeme hlongest hitem =>
    rw [← hline, htaken] at hitem
    exact ⟨_, htaken ▸ hlongest.isLexeme, hitem⟩

theorem readable_of_tokens {source : List UInt8} {ts : List Token} {eof : Token}
    (h : tokens source = .ok (ts ++ [eof])) : ∀ t ∈ ts, Readable t := by
  intro t ht
  obtain ⟨spans, hcuts, -, heq⟩ := tokens_eq_ok.1 h
  rw [(List.append_inj' heq rfl).1] at ht
  obtain ⟨span, hspan, hitem⟩ := List.mem_filterMap.1 ht
  obtain ⟨_, _, htakes⟩ := hcuts.takes_of_mem hspan
  rw [Span.token?_eq_some.1 hitem] at htakes
  exact htakes.readable

/-- What a token is, wherever it stands. -/
def content (t : Token) : TokenKind × String :=
  (t.kind, t.lexeme)

/-- A lexeme before a blank or at the end is taken as the token it stands for. -/
theorem Readable.takes {t : Token} (h : Readable t) (before : List UInt8) {after : List UInt8}
    (hafter : ∀ b ∈ after.head?, IsBlank b) : ∃ t', content t' = content t ∧
      Takes before (Utf8.encode t.lexeme ++ after) (Utf8.encode t.lexeme) (.token t') := by
  obtain ⟨c, hlexeme, hstands⟩ := h
  have hc : c ≠ .skipped := by
    rintro rfl
    cases hstands
  refine ⟨⟨t.kind, t.lexeme, 1 + newlines (before ++ Utf8.encode t.lexeme)⟩, rfl,
    .lexeme ?_ (hstands.onLine _)⟩
  rcases after with _ | ⟨b, after⟩
  · rw [List.append_nil]
    exact hlexeme.longest_self
  · exact hlexeme.longest_before_blank hc (hafter b rfl)

/-- What is written with space between the lexemes is cut into them and the space. -/
theorem Spaced.cuts {ts : List Token} {written : List UInt8} (h : Spaced ts written)
    (hts : ∀ t ∈ ts, Readable t) (before : List UInt8) : ∃ spans, Cuts before written spans ∧
      (∀ span ∈ spans, ∀ f, span.item ≠ .fault f) ∧
      (spans.filterMap Span.token?).map content = ts.map content := by
  induction h generalizing before with
  | nil => exact ⟨[], .done, List.forall_mem_nil _, rfl⟩
  | last t =>
    have hend : ∀ b ∈ ([] : List UInt8).head?, IsBlank b := nofun
    obtain ⟨t', ht', htakes⟩ := (hts t (by simp)).takes before hend
    rw [List.append_nil] at htakes
    refine ⟨[⟨Utf8.encode t.lexeme, .token t'⟩], ?_, by simp, by simp [Span.token?, ht']⟩
    exact .take htakes (List.append_nil _).symm .done
  | @next t t' ts separator rest hseparator _ ih =>
    obtain ⟨ht, hts⟩ := List.forall_mem_cons.1 hts
    obtain @⟨b, more, hb, hmore⟩ := hseparator
    obtain ⟨spans, hcuts, hnone, htokens⟩ := ih hts (before ++ Utf8.encode t.lexeme ++ b :: more)
    obtain ⟨skipped, hspace, hskipped⟩ := (Space.blank hb hmore).cuts hcuts
    have hblank : ∀ d ∈ (b :: more ++ rest).head?, IsBlank d := by simpa using hb
    obtain ⟨t'', ht'', htakes⟩ := ht.takes before hblank
    refine ⟨⟨Utf8.encode t.lexeme, .token t''⟩ :: (skipped ++ spans), .take htakes rfl hspace, ?_, ?_⟩
    · refine List.forall_mem_cons.2 ⟨by simp, List.forall_mem_append.2 ⟨?_, hnone⟩⟩
      intro span hspan
      simp [hskipped span hspan]
    · have hno : skipped.filterMap Span.token? = [] := by
        rw [List.filterMap_eq_nil_iff]
        intro span hspan
        rw [Span.token?, hskipped span hspan]
      rw [List.filterMap_cons, List.filterMap_append, hno, List.nil_append, List.map_cons, ← htokens,
        ← ht'']
      rfl

/-- If the lexemes of a source are written down with a separator between one and the next, they are
read as the same tokens again, up to their lines, and then comes the end. -/
theorem tokens_respaced {source written : List UInt8} {ts : List Token} {eof : Token}
    (h : tokens source = .ok (ts ++ [eof])) (hwritten : Spaced ts written) :
    ∃ ts', tokens written = .ok (ts' ++ [Token.endOn (1 + newlines written)]) ∧
      ts'.map content = ts.map content ∧ eof.isEnd = true ∧ ∀ t ∈ ts ++ ts', t.isEnd = false := by
  obtain ⟨spans, hcuts, hnone, hcontent⟩ := hwritten.cuts (readable_of_tokens h) []
  have htokens := tokens_eq_ok.2 ⟨spans, hcuts, hnone, rfl⟩
  obtain ⟨ts₀, heq, hend⟩ := terminated_tokens h
  obtain ⟨rfl, heof⟩ := List.append_inj' heq rfl
  cases heof
  obtain ⟨ts₁, heq', hend'⟩ := terminated_tokens htokens
  obtain ⟨rfl, -⟩ := List.append_inj' heq' rfl
  exact ⟨_, htokens, hcontent, hend.isEnd, List.forall_mem_append.2 ⟨hend.others, hend'.others⟩⟩

/-- Numbers and a point, a slash, a word that a keyword starts and a string that looks like a comment
over two lines. -/
def tightSource : List UInt8 :=
  "1.5.or_=\"//\n\"/a".toUTF8.toList

def tightTokens : List Token :=
  [⟨.number 1.5, "1.5", 1⟩, ⟨.symbol .dot, ".", 1⟩, ⟨.identifier, "or_", 1⟩, ⟨.symbol .equal, "=", 1⟩,
    ⟨.string "//\n", "\"//\n\"", 2⟩, ⟨.symbol .slash, "/", 2⟩, ⟨.identifier, "a", 2⟩]

def looseSource : List UInt8 :=
  "1.5 .\n//=\n\tor_ = \"//\n\"\r// a\n// b\n / a".toUTF8.toList

theorem spaced_looseSource : Spaced tightTokens looseSource := by
  have hwritten : looseSource = Utf8.encode "1.5" ++ ([32] ++ (Utf8.encode "." ++
      (10 :: (47 :: 47 :: ([61] ++ 10 :: [9])) ++ (Utf8.encode "or_" ++ ([32] ++ (Utf8.encode "=" ++
      ([32] ++ (Utf8.encode "\"//\n\"" ++ (13 :: (47 :: 47 :: ([32, 97] ++ 10 ::
      (47 :: 47 :: ([32, 98] ++ 10 :: [32])))) ++ (Utf8.encode "/" ++ ([32] ++
      Utf8.encode "a"))))))))))) := by
    decide +kernel
  have hblank {b : UInt8} (hb : IsBlank b) : Separator [b] := ⟨hb, .nil⟩
  rw [hwritten]
  refine .next (hblank (by decide)) (.next ⟨by decide, ?_⟩ (.next (hblank (by decide))
    (.next (hblank (by decide)) (.next ⟨by decide, ?_⟩ (.next (hblank (by decide)) (.last _))))))
  · exact .comment (by decide) (.blank (by decide) .nil)
  · exact .comment (by decide) (.comment (by decide) (.blank (by decide) .nil))

theorem tokens_respaced_looseSource :
    tokens tightSource = .ok (tightTokens ++ [Token.endOn 2]) ∧ Spaced tightTokens looseSource ∧
      ∃ ts, tokens looseSource = .ok (ts ++ [Token.endOn 6]) ∧
        ts.map content = tightTokens.map content := by
  have h : tokens tightSource = .ok (tightTokens ++ [Token.endOn 2]) := by
    have hscan : (tokens tightSource).toOption = some (tightTokens ++ [Token.endOn 2]) := by
      decide +kernel
    cases htokens : tokens tightSource with
    | error f =>
      rw [htokens] at hscan
      cases hscan
    | ok ts =>
      rw [htokens] at hscan
      rw [Option.some.inj hscan]
  obtain ⟨ts, htokens, hcontent, -⟩ := tokens_respaced h spaced_looseSource
  have hline : 1 + newlines looseSource = 6 := by decide +kernel
  rw [hline] at htokens
  exact ⟨h, spaced_looseSource, ts, htokens, hcontent⟩

end TreeWalk.Lexer
