import TreeWalk.Proofs.Lexemes
import TreeWalk.Diagnostic

/-!
# The longest lexeme wins

`Lexer.scan` lists the items of the longest lexemes and then the end of the source
(`scan_eq_longest_lexemes`). The step is `Piece.Cut`, that one call of `Lexer.next` takes what
`Takes` says; there is one lemma for each function that `next` branches to.
-/

namespace TreeWalk.Lexer

/-! ### One piece -/

/-- The piece takes from `source` what is to be taken. -/
def Piece.Cut (before source : List UInt8) (piece : Piece) : Prop :=
  ∃ taken, source = taken ++ piece.rest ∧ piece.line = 1 + newlines (before ++ taken) ∧
    Takes before source taken piece.item

theorem newlines_append (xs ys : List UInt8) : newlines (xs ++ ys) = newlines xs + newlines ys :=
  List.countP_append

theorem newlines_eq_zero {bytes : List UInt8} (h : 10 ∉ bytes) : newlines bytes = 0 := by
  rw [newlines, List.countP_eq_zero]
  intro b hb heq
  exact h (eq_of_beq heq ▸ hb)

section

variable {before rest taken : List UInt8} {line : Nat} {b : UInt8} {c : LexemeClass}

theorem cut_lexeme {source : List UInt8} {item : Item} (hsource : source = taken ++ rest)
    (hlongest : Longest source taken c) (hline : line = 1 + newlines (before ++ taken))
    (hitem : Stands taken line c item) : Piece.Cut before source ⟨item, line, rest⟩ :=
  ⟨taken, hsource, hline, .lexeme hlongest (hline ▸ hitem)⟩

/-- Only lexemes that the first byte allows have to be compared. -/
theorem longest_of_lead (htaken : Lexeme taken c) (hstarts : taken <+: b :: rest)
    (hlongest : ∀ more c', more <+: rest → (lead b).Allows b more c' →
      (b :: more).length ≤ taken.length) : Longest (b :: rest) taken c where
  isLexeme := htaken
  starts := hstarts
  longest := by
    intro lexeme' c' h' hstarts'
    rcases lexeme' with _ | ⟨b', more⟩
    · exact absurd rfl h'.ne_nil
    · obtain ⟨rfl, hmore⟩ := List.cons_prefix_cons.1 hstarts'
      exact hlongest more c' hmore h'.allowed

theorem noLexeme_of_lead
    (h : ∀ more c, more <+: rest → ¬(lead b).Allows b more c) : NoLexeme (b :: rest) := by
  intro lexeme c hlexeme hstarts
  rcases lexeme with _ | ⟨b', more⟩
  · exact absurd rfl hlexeme.ne_nil
  · obtain ⟨rfl, hmore⟩ := List.cons_prefix_cons.1 hstarts
    exact h more c hmore hlexeme.allowed

theorem line_of_no_newline (hline : line = 1 + newlines before) (h : 10 ∉ taken) :
    line = 1 + newlines (before ++ taken) := by
  rw [newlines_append, newlines_eq_zero h]
  exact hline

theorem ten_not_mem_of {p : UInt8 → Bool} {bytes : List UInt8} (h : ∀ b ∈ bytes, p b)
    (hp : p 10 = false) : 10 ∉ bytes := by
  intro hmem
  have h10 := h 10 hmem
  rw [hp] at h10
  cases h10

/-! #### Symbols and blanks -/

theorem cut_symbol {s : Symbol} (hline : line = 1 + newlines before)
    (hspelling : s.spelling = taken.map charOf) (hplain : ∀ b ∈ taken, Plain b)
    (hlongest : ∀ more c', more <+: rest → (lead b).Allows b more c' →
      (b :: more).length ≤ taken.length) {after : List UInt8} (hsource : b :: rest = taken ++ after) :
    Piece.Cut before (b :: rest) ⟨.token ⟨.symbol s, asciiText taken, line⟩, line, after⟩ := by
  have hstarts : taken <+: b :: rest := hsource ▸ List.prefix_append _ _
  have hnone : 10 ∉ taken := fun h => Nat.lt_irrefl _ (hplain 10 h).1
  refine cut_lexeme hsource (longest_of_lead (.symbol hspelling.symm) hstarts hlongest)
    (line_of_no_newline hline hnone) (.symbol ?_)
  rw [encode_asciiText fun b hb => (hplain b hb).2]

theorem cut_single {s : Symbol} (hline : line = 1 + newlines before) (hs : single? b = some s) :
    Piece.Cut before (b :: rest) ⟨.token ⟨.symbol s, asciiText [b], line⟩, line, rest⟩ := by
  obtain ⟨hspelling, hplain⟩ := spelling_of_single b s hs
  have hlead : lead b = .single s := by simp [lead, hs]
  refine cut_symbol hline hspelling (by simpa using hplain) ?_ rfl
  intro more c' _ hallows
  rw [hlead] at hallows
  obtain ⟨rfl, -⟩ := hallows
  exact Nat.le_refl _

theorem cut_oneOrTwo {one two : Symbol} {second : Char} (hline : line = 1 + newlines before)
    (hsingle : single? b = none) (hdouble : double? b = some (one, second, two)) :
    Piece.Cut before (b :: rest) (oneOrTwo line b rest one second two) := by
  obtain ⟨hone, htwo, hplain, hsecond⟩ := spelling_of_double b _ hdouble
  have hlead : lead b = .double one second two := by simp [lead, hsingle, hdouble]
  have halone (hne : ∀ d ∈ rest.head?, charOf d ≠ second) :
      Piece.Cut before (b :: rest) ⟨.token ⟨.symbol one, asciiText [b], line⟩, line, rest⟩ := by
    refine cut_symbol hline hone (by simpa using hplain) ?_ rfl
    intro more c' hmore hallows
    rw [hlead] at hallows
    rcases hallows with ⟨rfl, -⟩ | ⟨d, rfl, hd, -⟩
    · exact Nat.le_refl _
    · obtain ⟨after, rfl⟩ := hmore
      exact absurd hd (hne d rfl)
  unfold oneOrTwo
  rcases rest with _ | ⟨d, rest⟩
  · exact halone (by simp)
  · simp only
    split
    · next hd =>
      have hplain' : Plain d := by
        show 10 < d.toNat ∧ d.toNat < 0x80
        rw [← toNat_charOf d, hd]
        exact hsecond
      refine cut_symbol hline (by simp [htwo, hd]) (by simp [hplain, hplain']) ?_ rfl
      intro more c' hmore hallows
      rw [hlead] at hallows
      rcases hallows with ⟨rfl, -⟩ | ⟨d, rfl, -⟩
      · exact Nat.le_succ _
      · exact Nat.le_refl _
    · next hd => exact halone (by simpa using hd)

theorem cut_blank (hblank : IsBlank b) (hline : line = 1 + newlines (before ++ [b])) :
    Piece.Cut before (b :: rest) ⟨.skipped, line, rest⟩ := by
  refine cut_lexeme rfl (longest_of_lead (.blank hblank) (List.prefix_append [b] rest) ?_) hline
    .skipped
  intro more c' _ hallows
  rw [lead_of_blank b hblank] at hallows
  obtain ⟨rfl, -⟩ := hallows
  exact Nat.le_refl _

theorem all_takeWhile (p : UInt8 → Bool) (bytes : List UInt8) : ∀ b ∈ bytes.takeWhile p, p b :=
  List.all_eq_true.1 List.all_takeWhile

theorem cut_slash (hline : line = 1 + newlines before) :
    Piece.Cut before (47 :: rest) (slash line rest) := by
  unfold slash
  split
  · next comment =>
    have hpieces : 47 :: 47 :: comment =
        (47 :: 47 :: comment.takeWhile (· != 10)) ++ comment.dropWhile (· != 10) := by
      rw [List.cons_append, List.cons_append, List.takeWhile_append_dropWhile]
    have hnone : 10 ∉ comment.takeWhile (· != 10) := ten_not_mem_of (all_takeWhile _ _) rfl
    refine cut_lexeme hpieces (longest_of_lead (.comment hnone) ?_ ?_)
      (line_of_no_newline hline (by simpa using hnone)) .skipped
    · exact hpieces ▸ List.prefix_append _ _
    · intro more c' hmore hallows
      rcases hallows with ⟨rfl, -⟩ | ⟨text, rfl, htext, -⟩
      · simp
      · have hstarts : text <+: comment.takeWhile (· != 10) := by
          refine starts_takeWhile ?_ (List.cons_prefix_cons.1 hmore).2
          intro b hb
          simpa using fun heq : b = 10 => htext (heq ▸ hb)
        simpa using hstarts.length_le
  · next hne =>
    have hspelling : Symbol.slash.spelling = [47].map charOf := rfl
    have hplain : Plain 47 := ⟨by decide, by decide⟩
    refine cut_symbol hline hspelling (by simpa using hplain) ?_ rfl
    intro more c' hmore hallows
    rcases hallows with ⟨rfl, -⟩ | ⟨text, rfl, -⟩
    · simp
    · obtain ⟨after, rfl⟩ := hmore
      exact absurd rfl (hne (text ++ after))

/-! #### Strings, numbers and words -/

/-- A string that starts here ends at the first quote. -/
theorem string_parts {content after : List UInt8} (hcontent : 34 ∉ content)
    (hrest : rest = content ++ 34 :: after) :
    rest.takeWhile (· != 34) = content ∧ rest.dropWhile (· != 34) = 34 :: after := by
  have hrun : ∀ b ∈ content, (b != 34) = true := by
    intro b hb
    simpa using fun heq : b = 34 => hcontent (heq ▸ hb)
  rw [hrest]
  refine ⟨takeWhile_run hrun (by simp), ?_⟩
  rw [List.dropWhile_append_of_pos hrun]
  simp

theorem cut_string (hline : line = 1 + newlines before) :
    Piece.Cut before (34 :: rest) (string line rest) := by
  have hrest : rest.takeWhile (· != 34) ++ rest.dropWhile (· != 34) = rest :=
    List.takeWhile_append_dropWhile
  have hnone : 34 ∉ rest.takeWhile (· != 34) := by
    intro h
    simpa using all_takeWhile _ _ _ h
  have hline' : line + newlines (rest.takeWhile (· != 34)) =
      1 + newlines (before ++ 34 :: rest.takeWhile (· != 34)) := by
    rw [newlines_append, hline, newlines, newlines, newlines, List.countP_cons_of_neg (by decide)]
    omega
  unfold string
  split
  · next hdrop =>
    rw [hdrop, List.append_nil] at hrest
    rw [hrest] at hline'
    refine ⟨34 :: rest, by simp, by rw [hrest]; exact hline', ?_⟩
    simp only [hrest]
    rw [hline']
    refine .unterminated (noLexeme_of_lead fun more c hmore hallows => ?_) rfl rfl
    obtain ⟨content, rfl, hcontent, -⟩ := hallows
    obtain ⟨after, hafter⟩ := hmore
    rw [List.append_assoc] at hafter
    have hparts := (string_parts hcontent hafter.symm).2
    rw [hdrop] at hparts
    cases hparts
  · next quote after hdrop =>
    obtain rfl : quote = 34 := by
      have hhead := head?_dropWhile (p := (· != 34)) quote (by rw [hdrop]; rfl)
      simpa using hhead
    have hsource : 34 :: rest = 34 :: (rest.takeWhile (· != 34) ++ [34]) ++ after := by
      rw [hdrop] at hrest
      simp [hrest]
    have hlongest : Longest (34 :: rest) (34 :: (rest.takeWhile (· != 34) ++ [34]))
        (.string (rest.takeWhile (· != 34))) := by
      refine longest_of_lead (.string hnone) (hsource ▸ List.prefix_append _ _) ?_
      intro more c hmore hallows
      obtain ⟨content, rfl, hcontent, -⟩ := hallows
      obtain ⟨after', hafter⟩ := hmore
      rw [List.append_assoc] at hafter
      apply Nat.le_of_eq
      rw [(string_parts hcontent hafter.symm).1]
    have hline'' : line + newlines (rest.takeWhile (· != 34)) =
        1 + newlines (before ++ 34 :: (rest.takeWhile (· != 34) ++ [34])) := by
      rw [hline', newlines_append, newlines_append, ← List.cons_append, newlines_append]
      rfl
    simp only
    split
    · next htext =>
      exact cut_lexeme hsource hlongest hline'' (.notText (Utf8.text?_eq_none_iff.1 htext))
    · next s htext =>
      have hcontent := Utf8.text?_eq_some_iff.1 htext
      refine cut_lexeme hsource hlongest hline'' (.string hcontent ?_)
      have hquote : Utf8.encode "\"" = [34] := by decide +kernel
      rw [Utf8.encode_append, Utf8.encode_append, ← hcontent, hquote]
      rfl

/-- The digits before and after the point of a number that starts here. -/
theorem decimal_parts {bytes whole after : List UInt8} (hwhole : ∀ b ∈ whole, isDigit b)
    (hbytes : bytes = whole ++ 46 :: after) :
    bytes.takeWhile isDigit = whole ∧ bytes.dropWhile isDigit = 46 :: after := by
  rw [hbytes]
  refine ⟨takeWhile_run hwhole (by simp [isDigit]), ?_⟩
  rw [List.dropWhile_append_of_pos hwhole]
  simp [isDigit]

theorem stands_number {whole fraction : List UInt8} (htaken : ∀ d ∈ taken, d.toNat < 0x80) :
    Stands taken line (.number whole fraction)
      (.token (numberToken line whole fraction (asciiText taken))) :=
  .number (encode_asciiText htaken).symm

theorem cut_decimal {d : UInt8} {more : List UInt8} (hline : line = 1 + newlines before)
    (hb : isDigit b) (hdrop : (b :: rest).dropWhile isDigit = 46 :: d :: more) (hd : isDigit d) :
    Piece.Cut before (b :: rest) ⟨.token (numberToken line ((b :: rest).takeWhile isDigit)
      ((d :: more).takeWhile isDigit)
      (asciiText ((b :: rest).takeWhile isDigit ++ 46 :: (d :: more).takeWhile isDigit))), line,
      (d :: more).dropWhile isDigit⟩ := by
  have hlead : lead b = .digit := lead_of_digit b ((isDigit_iff b).1 hb)
  have hwhole := all_takeWhile isDigit (b :: rest)
  have hfraction := all_takeWhile isDigit (d :: more)
  have hne : (b :: rest).takeWhile isDigit ≠ [] := by simp [hb]
  have hne' : (d :: more).takeWhile isDigit ≠ [] := by simp [hd]
  have hsource : b :: rest = (b :: rest).takeWhile isDigit ++ 46 :: (d :: more).takeWhile isDigit ++
      (d :: more).dropWhile isDigit := by
    rw [List.append_assoc, List.cons_append, List.takeWhile_append_dropWhile, ← hdrop,
      List.takeWhile_append_dropWhile]
  refine cut_lexeme hsource (longest_of_lead (.decimal hne ?_ hne' ?_) ?_ ?_)
    (line_of_no_newline hline ?_) (stands_number ?_)
  · exact fun e he => (isDigit_iff e).1 (hwhole e he)
  · exact fun e he => (isDigit_iff e).1 (hfraction e he)
  · exact ⟨_, hsource.symm⟩
  · intro rest' c hmore hallows
    have hstarts : b :: rest' <+: b :: rest := List.cons_prefix_cons.2 ⟨rfl, hmore⟩
    rw [hlead] at hallows
    rcases hallows with ⟨whole, rfl, hdigits, -⟩ | ⟨whole, d', fraction, heq, hdigits, hdigits', -⟩
    · have hlength := (starts_takeWhile hdigits hstarts).length_le
      rw [List.length_append]
      omega
    · obtain ⟨after, hafter⟩ := hstarts
      rw [heq, List.append_assoc] at hafter
      obtain ⟨htake, hdrop'⟩ := decimal_parts hdigits hafter.symm
      rw [hdrop] at hdrop'
      have hstarts' : d' :: fraction <+: d :: more := ⟨after, (List.cons.inj hdrop').2.symm⟩
      have hlength := (starts_takeWhile hdigits' hstarts').length_le
      rw [heq, htake, List.length_append, List.length_append, List.length_cons, List.length_cons]
      exact Nat.add_le_add_left (Nat.succ_le_succ hlength) _
  · intro h
    rcases List.mem_append.1 h with h | h
    · exact ten_not_mem_of hwhole rfl h
    · exact ten_not_mem_of hfraction rfl (by simpa using h)
  · intro e he
    rcases List.mem_append.1 he with he | he
    · exact toNat_lt_of_digit e (hwhole e he)
    · rcases List.mem_cons.1 he with rfl | he
      · decide
      · exact toNat_lt_of_digit e (hfraction e he)

theorem cut_whole (hline : line = 1 + newlines before) (hb : isDigit b)
    (hdrop : ∀ d more, (b :: rest).dropWhile isDigit = 46 :: d :: more → isDigit d = false) :
    Piece.Cut before (b :: rest) ⟨.token (numberToken line ((b :: rest).takeWhile isDigit) []
      (asciiText ((b :: rest).takeWhile isDigit))), line, (b :: rest).dropWhile isDigit⟩ := by
  have hlead : lead b = .digit := lead_of_digit b ((isDigit_iff b).1 hb)
  have hwhole := all_takeWhile isDigit (b :: rest)
  have hne : (b :: rest).takeWhile isDigit ≠ [] := by simp [hb]
  refine cut_lexeme List.takeWhile_append_dropWhile.symm
    (longest_of_lead (.whole hne fun e he => (isDigit_iff e).1 (hwhole e he))
      (List.takeWhile_prefix _) ?_)
    (line_of_no_newline hline (ten_not_mem_of hwhole rfl))
    (stands_number fun e he => toNat_lt_of_digit e (hwhole e he))
  intro rest' c hmore hallows
  have hstarts : b :: rest' <+: b :: rest := List.cons_prefix_cons.2 ⟨rfl, hmore⟩
  rw [hlead] at hallows
  rcases hallows with ⟨whole, rfl, hdigits, -⟩ | ⟨whole, d', fraction, heq, hdigits, hdigits', -⟩
  · exact (starts_takeWhile hdigits hstarts).length_le
  · obtain ⟨after, hafter⟩ := hstarts
    rw [heq, List.append_assoc] at hafter
    have hd' := hdrop _ _ (decimal_parts hdigits hafter.symm).2
    rw [hdigits' d' (by simp)] at hd'
    cases hd'

theorem cut_number (hline : line = 1 + newlines before) (hb : isDigit b) :
    Piece.Cut before (b :: rest) (number line (b :: rest)) := by
  simp only [number]
  split
  · next d more hdrop =>
    split
    · next hd => exact cut_decimal hline hb hdrop hd
    · next hd =>
      refine cut_whole hline hb fun d' more' hdrop' => ?_
      cases hdrop.symm.trans hdrop'
      simpa using hd
  · next hne => exact cut_whole hline hb fun d more hdrop => absurd hdrop (hne d more)

theorem cut_word (hline : line = 1 + newlines before) (hb : startsWord b) :
    Piece.Cut before (b :: rest) (word line (b :: rest)) := by
  have hletter : IsLetter b := (startsWord_iff b).1 hb
  have hlead : lead b = .letter := lead_of_letter b hletter
  have hbytes : b :: rest =
      (b :: rest).takeWhile continuesWord ++ (b :: rest).dropWhile continuesWord :=
    List.takeWhile_append_dropWhile.symm
  have hword := all_takeWhile continuesWord (b :: rest)
  have hcons : (b :: rest).takeWhile continuesWord = b :: rest.takeWhile continuesWord := by
    simp [continuesWord, hb]
  have htext : (b :: rest).takeWhile continuesWord =
      Utf8.encode (asciiText ((b :: rest).takeWhile continuesWord)) :=
    (encode_asciiText fun d hd => toNat_lt_of_word d (hword d hd)).symm
  refine cut_lexeme hbytes (longest_of_lead ?_ ?_ ?_)
    (line_of_no_newline hline (ten_not_mem_of hword rfl)) ?_ (c := .word)
  · rw [hcons]
    exact .word hletter fun d hd => (continuesWord_iff d).1 (all_takeWhile _ _ d hd)
  · exact List.takeWhile_prefix _
  · intro more c' hmore hallows
    rw [hlead] at hallows
    exact (starts_takeWhile hallows.1 (List.cons_prefix_cons.2 ⟨rfl, hmore⟩)).length_le
  · cases hkey : Keyword.ofText? (asciiText ((b :: rest).takeWhile continuesWord)) with
    | some k =>
      have hk : k.text = asciiText ((b :: rest).takeWhile continuesWord) := by
        simpa using List.find?_some hkey
      rw [← hk] at htext ⊢
      exact .keyword htext
    | none =>
      refine .name htext ?_
      intro k hk
      rw [← hk, ofText?_text] at hkey
      cases hkey

/-- One round takes what is to be taken. -/
theorem cut_next (hline : line = 1 + newlines before) :
    Piece.Cut before (b :: rest) (next line b rest) := by
  unfold next
  split
  · next s hs => exact cut_single hline hs
  next hsingle =>
  split
  · next one second two hdouble => exact cut_oneOrTwo hline hsingle hdouble
  next hdouble =>
  split
  · next hblank =>
    refine cut_blank ((isBlank_iff b).1 (.inl hblank)) (line_of_no_newline hline ?_)
    rintro hb
    cases List.mem_singleton.1 hb
    cases hblank
  next hblank =>
  split
  · next hnewline =>
    refine cut_blank ((isBlank_iff b).1 (.inr hnewline)) ?_
    rw [newlines_append, eq_of_beq hnewline, hline]
    rfl
  next hnewline =>
  split
  · next hslash =>
    rw [eq_of_beq hslash]
    exact cut_slash hline
  next hslash =>
  split
  · next hquote =>
    rw [eq_of_beq hquote]
    exact cut_string hline
  next hquote =>
  split
  · next hdigit => exact cut_number hline hdigit
  next hdigit =>
  split
  · next hletter => exact cut_word hline hletter
  next hletter =>
  have hother : lead b = .other := by
    have h₁ : ¬IsBlank b := fun h => by simpa [hblank, hnewline] using (isBlank_iff b).2 h
    have h₂ : ¬b = 47 := by simpa using hslash
    have h₃ : ¬b = 34 := by simpa using hquote
    have h₄ : ¬IsDigit b := fun h => hdigit ((isDigit_iff b).2 h)
    have h₅ : ¬IsLetter b := fun h => hletter ((startsWord_iff b).2 h)
    simp only [lead, hsingle, hdouble, h₁, h₂, h₃, h₄, h₅, if_false]
  have hline' : line = 1 + newlines (before ++ [b]) := by
    refine line_of_no_newline hline fun h => ?_
    cases List.mem_singleton.1 h
    exact hnewline rfl
  refine ⟨[b], rfl, hline', ?_⟩
  simp only
  rw [hline']
  refine .unexpected (noLexeme_of_lead fun more c _ hallows => ?_) (by simpa using hquote) rfl rfl
  rw [hother] at hallows
  exact hallows

end

/-! ### The whole source -/

theorem scanFrom_cons (fuel line : Nat) (b : UInt8) (rest taken : List UInt8) :
    scanFrom (fuel + 1) line (b :: rest) =
      (Span.mk taken (next line b rest).item).result?.toList ++
        scanFrom fuel (next line b rest).line (next line b rest).rest := by
  rw [scanFrom]
  cases (next line b rest).item <;> simp [Span.result?]

theorem cuts_scanFrom {fuel : Nat} {before source : List UInt8} (hfuel : source.length ≤ fuel) :
    ∃ spans, Cuts before source spans ∧ scanFrom fuel (1 + newlines before) source =
      spans.filterMap Span.result? ++ [.ok (Token.endOn (1 + newlines (before ++ source)))] := by
  induction fuel generalizing before source with
  | zero =>
    obtain rfl := List.length_eq_zero_iff.1 (Nat.le_zero.1 hfuel)
    exact ⟨[], .done, by simp [scanFrom]⟩
  | succ fuel ih =>
    rcases source with _ | ⟨b, rest⟩
    · exact ⟨[], .done, by simp [scanFrom]⟩
    have hcut : Piece.Cut before (b :: rest) (next (1 + newlines before) b rest) := cut_next rfl
    obtain ⟨taken, hsource, hline, htakes⟩ := hcut
    rw [scanFrom_cons fuel _ b rest taken]
    generalize next (1 + newlines before) b rest = piece at hsource hline htakes ⊢
    have hlength : piece.rest.length ≤ fuel := by
      have hne := List.length_pos_iff.2 htakes.ne_nil
      have htotal := congrArg List.length hsource
      rw [List.length_append] at htotal
      simp only [List.length_cons] at htotal hfuel
      omega
    have hrest := @ih (before ++ taken) piece.rest hlength
    rw [← hline, List.append_assoc, ← hsource] at hrest
    obtain ⟨spans, hcuts, hscan⟩ := hrest
    refine ⟨⟨taken, piece.item⟩ :: spans, .take htakes hsource hcuts, ?_⟩
    rw [hscan, List.filterMap_cons]
    cases Span.result? ⟨taken, piece.item⟩ <;> simp

theorem Cuts.flatten {before source : List UInt8} {spans : List Span}
    (h : Cuts before source spans) : (spans.map Span.bytes).flatten = source := by
  induction h with
  | done => rfl
  | take htakes hsource hrest ih => rw [List.map_cons, List.flatten_cons, ih, hsource]

theorem Cuts.takes {before source : List UInt8} {earlier later : List Span} {span : Span}
    (h : Cuts before source (earlier ++ span :: later)) :
    ∃ rest, Takes (before ++ (earlier.map Span.bytes).flatten) rest span.bytes span.item := by
  induction earlier generalizing before source with
  | nil =>
    cases h with
    | take htakes => exact ⟨source, by simpa using htakes⟩
  | cons first earlier ih =>
    cases h with
    | take _ _ hrest => simpa using ih hrest

theorem Cuts.takes_of_mem {before source : List UInt8} {spans : List Span} {span : Span}
    (h : Cuts before source spans) (hspan : span ∈ spans) :
    ∃ before' rest, Takes before' rest span.bytes span.item := by
  obtain ⟨earlier, later, rfl⟩ := List.append_of_mem hspan
  obtain ⟨rest, htakes⟩ := h.takes
  exact ⟨_, rest, htakes⟩

theorem Takes.line {before source taken : List UInt8} {item : Item} {line : Nat}
    (h : Takes before source taken item) (hline : item.line? = some line) :
    line = 1 + newlines (before ++ taken) := by
  cases h with
  | lexeme _ hitem =>
    cases hitem with
    | skipped => cases hline
    | _ => exact (Option.some.inj hline).symm
  | unterminated | unexpected => exact (Option.some.inj hline).symm

theorem Takes.token {before source taken : List UInt8} {t : Token}
    (h : Takes before source taken (.token t)) :
    taken = Utf8.encode t.lexeme ∧ t.isEnd = false := by
  cases h with
  | lexeme _ hitem =>
    cases hitem with
    | symbol htext | number htext | keyword htext | name htext | string _ htext => exact ⟨htext, rfl⟩

theorem Span.result?_eq_ok {span : Span} {t : Token} :
    span.result? = some (.ok t) ↔ span.item = .token t := by
  unfold Span.result?
  split <;> simp_all

theorem Span.result?_eq_error {span : Span} {f : LexFault} :
    span.result? = some (.error f) ↔ span.item = .fault f := by
  unfold Span.result?
  split <;> simp_all

theorem Cuts.scan_eq {source : List UInt8} {spans : List Span} (h : Cuts [] source spans) :
    scan source = spans.filterMap Span.result? ++ [.ok (Token.endOn (1 + newlines source))] := by
  obtain ⟨spans', hcuts, hscan⟩ := @cuts_scanFrom _ [] source (Nat.le_refl _)
  rw [h.unique hcuts]
  exact hscan

theorem Cuts.error_mem_scan {source : List UInt8} {spans : List Span} (h : Cuts [] source spans)
    {f : LexFault} : .error f ∈ scan source ↔ ∃ span ∈ spans, span.item = .fault f := by
  simp only [h.scan_eq, List.mem_append, List.mem_filterMap, Span.result?_eq_error,
    List.mem_singleton, reduceCtorEq, or_false]

/-- The tokens and faults of a source are the items of its longest lexemes, in order, and the end of
the source comes last and nowhere else. The lexemes and the faulty parts between them are the whole
source; a token's text is its lexeme, and a token or a fault is on the line that it ends on. At the
end, how faults are worded. -/
theorem scan_eq_longest_lexemes (source : List UInt8) :
    ∃ spans, Cuts [] source spans ∧ (∀ spans', Cuts [] source spans' → spans' = spans) ∧
      scan source = spans.filterMap Span.result? ++
        [.ok (Token.endOn (1 + newlines source))] ∧
      (spans.map Span.bytes).flatten = source ∧
      (∀ span ∈ spans, ∀ t, span.item = .token t →
        span.bytes = Utf8.encode t.lexeme ∧ t.isEnd = false) ∧
      (∀ earlier span later line, spans = earlier ++ span :: later →
        span.item.line? = some line →
        line = 1 + newlines ((earlier ++ [span]).map Span.bytes).flatten) ∧
      LexCause.unterminated.message = "Unterminated string." ∧
      ∀ b, (LexCause.unexpected b).message = "Unexpected character: " ++ .singleton (charOf b) := by
  obtain ⟨spans, hcuts, hscan⟩ := @cuts_scanFrom _ [] source (Nat.le_refl _)
  refine ⟨spans, hcuts, fun _ h => h.unique hcuts, hscan, hcuts.flatten, ?_, ?_, rfl, fun _ => rfl⟩
  · intro span hspan t hitem
    obtain ⟨earlier, later, rfl⟩ := List.append_of_mem hspan
    obtain ⟨rest, htakes⟩ := hcuts.takes
    rw [hitem] at htakes
    exact htakes.token
  · rintro earlier span later line rfl hline
    obtain ⟨rest, htakes⟩ := hcuts.takes
    simpa using htakes.line hline

end TreeWalk.Lexer
