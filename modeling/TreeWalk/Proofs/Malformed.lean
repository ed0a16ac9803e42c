import TreeWalk.Proofs.Munch

/-!
# Sources that are no text

Only strings are ever read as text, and they are the only lexemes that may hold other bytes than
those of single characters. So a source is found to be malformed exactly at the strings whose content
is no text, whatever else is wrong with it (`Lexer.malformed_exactly_strings`). A quote is a byte that
never stands inside of a longer character: where the whole source is a text, so is what is between two
quotes, although the lexer takes a character it does not know byte by byte.
-/

namespace TreeWalk.Lexer

theorem head?_message_unexpected {b : UInt8} :
    (LexCause.unexpected b).message.toList.head? = some 'U' := by
  have hmessage : (LexCause.unexpected b).message =
      "Unexpected character: " ++ String.singleton (charOf b) := rfl
  have hhead : "Unexpected character: ".toList.head? = some 'U' := by decide +kernel
  rw [hmessage, String.toList_append, List.head?_append, hhead, Option.some_or]

theorem message_eq_notText {cause : LexCause} :
    cause.message = "Invalid UTF-8 in source." ↔ cause = .notText := by
  constructor
  · intro h
    have hhead : cause.message.toList.head? = some 'I' := by
      rw [h]
      decide +kernel
    cases cause with
    | notText => rfl
    | unterminated => exact absurd hhead (by decide +kernel)
    | unexpected b => exact absurd (head?_message_unexpected.symm.trans hhead) (by decide +kernel)
  · rintro rfl
    rfl

section

variable {before source taken : List UInt8} {item : Item}

theorem Takes.starts (h : Takes before source taken item) : taken <+: source := by
  cases h with
  | lexeme hlongest => exact hlongest.starts
  | unterminated _ _ htaken => exact htaken ▸ List.prefix_refl _
  | unexpected _ _ hhead htaken =>
    obtain ⟨rest, rfl⟩ := List.head?_eq_some_iff.1 hhead
    exact htaken ▸ List.prefix_append [_] rest

/-- What is taken is the item that it stands for if it is a lexeme at all. -/
theorem Takes.stands {c : LexemeClass} (h : Takes before source taken item) (hc : Lexeme taken c) :
    Stands taken (1 + newlines (before ++ taken)) c item := by
  have hstarts := h.starts
  cases h with
  | lexeme hlongest hitem => rwa [hlongest.isLexeme.class_unique hc] at hitem
  | unterminated hnone | unexpected hnone => exact absurd hstarts (hnone _ _ hc)

/-- What is taken is found to be malformed exactly if it is a string whose content is no text. -/
theorem Takes.notText_iff (h : Takes before source taken item) :
    (∃ line, item = .fault ⟨.notText, line⟩) ↔
      ∃ content, taken = 34 :: (content ++ [34]) ∧ 34 ∉ content ∧ ∀ s, content ≠ Utf8.encode s := by
  constructor
  · rintro ⟨line, rfl⟩
    cases h with
    | lexeme hlongest hitem =>
      cases hitem with
      | notText hcontent =>
        generalize hc : LexemeClass.string _ = c at hlongest
        have hlexeme := hlongest.isLexeme
        cases hlexeme with
        | string hquote =>
          cases hc
          exact ⟨_, rfl, hquote, hcontent⟩
        | _ => cases hc
  · rintro ⟨content, rfl, hquote, hcontent⟩
    cases h.stands (.string hquote) with
    | string htext => exact absurd htext (hcontent _)
    | notText => exact ⟨_, rfl⟩

end

/-- Between two quotes of a text stands a text. -/
theorem text_between_quotes {s : String} {front content rest : List UInt8}
    (h : Utf8.encode s = front ++ (34 :: (content ++ [34]) ++ rest)) : ∃ t, content = Utf8.encode t := by
  have hquote : (34 : UInt8).toNat < 0x80 := by decide
  rw [List.cons_append] at h
  obtain ⟨-, t, ht⟩ := Utf8.split_encode hquote h
  have hcontent : Utf8.encode t = content ++ 34 :: rest := by
    rw [← ht]
    simp
  exact (Utf8.split_encode hquote hcontent).1

/-- A source is cut into lexemes and faulty parts, and the parts that are found to be malformed are
the closed strings whose content is no text; every token was read from bytes that are the text of its
lexeme. So a source that is a text has no such part. No other faults are found than this one, a
string without an end and a byte that starts nothing. -/
theorem malformed_exactly_strings (source : List UInt8) :
    ∃ spans, Cuts [] source spans ∧
      scan source = spans.filterMap Span.result? ++ [.ok (Token.endOn (1 + newlines source))] ∧
      (∀ span ∈ spans, (∃ line, span.item = .fault ⟨.notText, line⟩) ↔
        ∃ content, span.bytes = 34 :: (content ++ [34]) ∧ 34 ∉ content ∧
          ∀ s, content ≠ Utf8.encode s) ∧
      (∀ span ∈ spans, ∀ t, span.item = .token t → Utf8.text? span.bytes = some t.lexeme) ∧
      (∀ s, source = Utf8.encode s → ∀ f, .error f ∈ scan source →
        f.cause.message ≠ "Invalid UTF-8 in source.") ∧
      ∀ f, .error f ∈ scan source →
        (∃ b, f.cause.message = "Unexpected character: " ++ String.singleton (charOf b)) ∨
        f.cause.message = "Unterminated string." ∨ f.cause.message = "Invalid UTF-8 in source." := by
  obtain ⟨spans, hcuts, -⟩ := @cuts_scanFrom _ [] source (Nat.le_refl _)
  have hmalformed : ∀ span ∈ spans, (∃ line, span.item = .fault ⟨.notText, line⟩) ↔
      ∃ content, span.bytes = 34 :: (content ++ [34]) ∧ 34 ∉ content ∧
        ∀ s, content ≠ Utf8.encode s := by
    intro span hspan
    obtain ⟨_, _, htakes⟩ := hcuts.takes_of_mem hspan
    exact htakes.notText_iff
  refine ⟨spans, hcuts, hcuts.scan_eq, hmalformed, ?_, ?_, ?_⟩
  · intro span hspan t hitem
    obtain ⟨_, _, htakes⟩ := hcuts.takes_of_mem hspan
    rw [hitem] at htakes
    exact Utf8.text?_eq_some_iff.2 htakes.token.1
  · rintro s hs f hf hmessage
    obtain ⟨span, hspan, hitem⟩ := hcuts.error_mem_scan.1 hf
    have hcause : f = ⟨.notText, f.line⟩ := by rw [← message_eq_notText.1 hmessage]
    rw [hcause] at hitem
    obtain ⟨content, hbytes, -, hcontent⟩ := (hmalformed span hspan).1 ⟨_, hitem⟩
    obtain ⟨earlier, later, rfl⟩ := List.append_of_mem hspan
    have hflat := hcuts.flatten
    rw [hs, List.map_append, List.map_cons, List.flatten_append, List.flatten_cons, hbytes] at hflat
    obtain ⟨t, ht⟩ := text_between_quotes hflat.symm
    exact hcontent t ht
  · intro f hf
    cases hcause : f.cause with
    | unexpected b => exact .inl ⟨b, rfl⟩
    | unterminated => exact .inr (.inl rfl)
    | notText => exact .inr (.inr rfl)

end TreeWalk.Lexer
