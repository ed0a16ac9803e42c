import TreeWalk.Token.Lexer
import TreeWalk.Proofs.Encoding

/-!
# Lexemes

What a source is cut into, said without running the lexer. `Lexeme bytes c` lists the lexemes of
each class. At each place the longest prefix that is a lexeme of any class is taken (`Longest`);
where no lexeme starts, a quote takes the rest of the source and any other byte is taken alone
(`Takes`). `Cuts before source spans` repeats this to the end, `before` being what has been taken
already: an item is on the line that its last byte is on. A source is cut in one way
(`Cuts.unique`).

A lexeme's first byte tells its class but for one choice, which is `Lead.Allows`; every comparison
with other lexemes goes through it.
-/

namespace TreeWalk

/-- The characters a symbol is written with. -/
def Symbol.spelling : Symbol → List Char
  | leftParen => ['('] | rightParen => [')']
  | leftBrace => ['{'] | rightBrace => ['}']
  | leftBracket => ['['] | rightBracket => [']']
  | comma => [','] | dot => ['.'] | question => ['?'] | colon => [':'] | semicolon => [';']
  | minus => ['-'] | minusMinus => ['-', '-'] | plus => ['+'] | plusPlus => ['+', '+']
  | slash => ['/'] | star => ['*']
  | bang => ['!'] | bangEqual => ['!', '='] | equal => ['='] | equalEqual => ['=', '=']
  | greater => ['>'] | greaterEqual => ['>', '='] | less => ['<'] | lessEqual => ['<', '=']

namespace Lexer

/-! ### Lexemes -/

inductive LexemeClass where
  /-- Blanks, line ends and comments. -/
  | skipped
  | symbol (s : Symbol)
  /-- The digits before and after the point. -/
  | number (whole fraction : List UInt8)
  | word
  /-- The bytes between the quotes. -/
  | string (content : List UInt8)

def IsDigit (b : UInt8) : Prop :=
  '0' ≤ charOf b ∧ charOf b ≤ '9'

def IsLetter (b : UInt8) : Prop :=
  'a' ≤ charOf b ∧ charOf b ≤ 'z' ∨ 'A' ≤ charOf b ∧ charOf b ≤ 'Z' ∨ charOf b = '_'

def IsBlank (b : UInt8) : Prop :=
  charOf b = ' ' ∨ charOf b = '\r' ∨ charOf b = '\t' ∨ charOf b = '\n'

inductive Lexeme : List UInt8 → LexemeClass → Prop
  | blank {b : UInt8} (hb : IsBlank b) : Lexeme [b] .skipped
  | comment {text : List UInt8} (htext : 10 ∉ text) : Lexeme (47 :: 47 :: text) .skipped
  | symbol {s : Symbol} {bytes : List UInt8} (hs : bytes.map charOf = s.spelling) :
      Lexeme bytes (.symbol s)
  | whole {whole : List UInt8} (hne : whole ≠ []) (hwhole : ∀ b ∈ whole, IsDigit b) :
      Lexeme whole (.number whole [])
  | decimal {whole fraction : List UInt8} (hne : whole ≠ []) (hwhole : ∀ b ∈ whole, IsDigit b)
      (hne' : fraction ≠ []) (hfraction : ∀ b ∈ fraction, IsDigit b) :
      Lexeme (whole ++ 46 :: fraction) (.number whole fraction)
  | word {b : UInt8} {more : List UInt8} (hb : IsLetter b)
      (hmore : ∀ c ∈ more, IsLetter c ∨ IsDigit c) : Lexeme (b :: more) .word
  | string {content : List UInt8} (hcontent : 34 ∉ content) :
      Lexeme (34 :: (content ++ [34])) (.string content)

/-- `lexeme` is the longest prefix of `source` that is a lexeme of any class. -/
structure Longest (source lexeme : List UInt8) (c : LexemeClass) : Prop where
  isLexeme : Lexeme lexeme c
  starts : lexeme <+: source
  longest : ∀ {lexeme' : List UInt8} {c' : LexemeClass}, Lexeme lexeme' c' → lexeme' <+: source →
    lexeme'.length ≤ lexeme.length

/-- The item that a lexeme on a line stands for. The text of a token is its lexeme. -/
inductive Stands (bytes : List UInt8) (line : Nat) : LexemeClass → Item → Prop
  | skipped : Stands bytes line .skipped .skipped
  | symbol {s : Symbol} {text : String} (htext : bytes = Utf8.encode text) :
      Stands bytes line (.symbol s) (.token ⟨.symbol s, text, line⟩)
  | number {whole fraction : List UInt8} {text : String} (htext : bytes = Utf8.encode text) :
      Stands bytes line (.number whole fraction) (.token ⟨.number
        (nearest (natOfDigits 0 ((whole ++ fraction).map charOf)) (-(fraction.length : Int))),
        text, line⟩)
  | keyword {k : Keyword} (htext : bytes = Utf8.encode k.text) :
      Stands bytes line .word (.token ⟨.keyword k, k.text, line⟩)
  | name {text : String} (htext : bytes = Utf8.encode text) (hname : ∀ k : Keyword, k.text ≠ text) :
      Stands bytes line .word (.token ⟨.identifier, text, line⟩)
  | string {content : List UInt8} {s text : String} (hcontent : content = Utf8.encode s)
      (htext : bytes = Utf8.encode text) :
      Stands bytes line (.string content) (.token ⟨.string s, text, line⟩)
  | notText {content : List UInt8} (hcontent : ∀ s, content ≠ Utf8.encode s) :
      Stands bytes line (.string content) (.fault ⟨.notText, line⟩)

/-- No lexeme starts here. -/
def NoLexeme (source : List UInt8) : Prop :=
  ∀ lexeme c, Lexeme lexeme c → ¬lexeme <+: source

/-- What is taken off the front of `source` when `before` has been taken already. -/
inductive Takes (before source taken : List UInt8) : Item → Prop
  | lexeme {c : LexemeClass} {item : Item} (hlongest : Longest source taken c)
      (hitem : Stands taken (1 + newlines (before ++ taken)) c item) : Takes before source taken item
  | unterminated (hnone : NoLexeme source) (hquote : source.head? = some 34)
      (htaken : taken = source) :
      Takes before source taken (.fault ⟨.unterminated, 1 + newlines (before ++ taken)⟩)
  | unexpected {b : UInt8} (hnone : NoLexeme source) (hb : b ≠ 34)
      (hhead : source.head? = some b) (htaken : taken = [b]) :
      Takes before source taken (.fault ⟨.unexpected b, 1 + newlines (before ++ taken)⟩)

/-- A part of a source and what it stands for. -/
structure Span where
  bytes : List UInt8
  item : Item

inductive Cuts : (before source : List UInt8) → List Span → Prop
  | done {before : List UInt8} : Cuts before [] []
  | take {before source taken rest : List UInt8} {item : Item} {spans : List Span}
      (htakes : Takes before source taken item) (hsource : source = taken ++ rest)
      (hrest : Cuts (before ++ taken) rest spans) : Cuts before source (⟨taken, item⟩ :: spans)

/-- What a span contributes to the list of tokens and faults. -/
def Span.result? (span : Span) : Option (Except LexFault Token) :=
  match span.item with
  | .skipped => none
  | .token t => some (.ok t)
  | .fault f => some (.error f)

/-- The line of a token or a fault. -/
def Item.line? : Item → Option Nat
  | .skipped => none
  | .token t => some t.line
  | .fault f => some f.line

/-! ### Bytes -/

theorem forall_byte {P : UInt8 → Prop} (h : ∀ n < 256, P (UInt8.ofNat n)) (b : UInt8) : P b := by
  have hb := h b.toNat b.toNat_lt
  rwa [UInt8.ofNat_toNat] at hb

instance : DecidablePred IsDigit := fun _ => inferInstanceAs (Decidable (_ ∧ _))

instance : DecidablePred IsLetter := fun _ => inferInstanceAs (Decidable (_ ∨ _))

instance : DecidablePred IsBlank := fun _ => inferInstanceAs (Decidable (_ ∨ _))

theorem isDigit_iff (b : UInt8) : isDigit b ↔ IsDigit b := by
  revert b
  exact forall_byte (by decide +kernel)

theorem startsWord_iff (b : UInt8) : startsWord b ↔ IsLetter b := by
  revert b
  exact forall_byte (by decide +kernel)

theorem continuesWord_iff (b : UInt8) : continuesWord b ↔ IsLetter b ∨ IsDigit b := by
  rw [continuesWord, Bool.or_eq_true, startsWord_iff, isDigit_iff]

theorem isBlank_iff (b : UInt8) : (b == 32 || b == 13 || b == 9) ∨ b == 10 ↔ IsBlank b := by
  revert b
  exact forall_byte (by decide +kernel)

theorem toNat_charOf (b : UInt8) : (charOf b).toNat = b.toNat :=
  Utf8.toNat_ofNat (.inl (Nat.lt_trans b.toNat_lt (by decide)))

theorem charOf_injective {b c : UInt8} (h : charOf b = charOf c) : b = c := by
  apply UInt8.toNat_inj.1
  rw [← toNat_charOf b, h, toNat_charOf c]

theorem toNat_lt_of_digit (b : UInt8) : isDigit b → b.toNat < 0x80 := by
  revert b
  exact forall_byte (by decide +kernel)

theorem toNat_lt_of_word (b : UInt8) : continuesWord b → b.toNat < 0x80 := by
  revert b
  exact forall_byte (by decide +kernel)

theorem encode_asciiText {bytes : List UInt8} (h : ∀ b ∈ bytes, b.toNat < 0x80) :
    Utf8.encode (asciiText bytes) = bytes := by
  rw [asciiText, Utf8.encode_ofList]
  induction bytes with
  | nil => rfl
  | cons b bytes ih =>
    rw [List.map_cons, List.flatMap_cons, charOf, Utf8.encodeChar_one (h b (by simp)),
      ih fun c hc => h c (by simp [hc])]
    rfl

/-! ### The first byte of a lexeme -/

/-- What the first byte of a lexeme says about it. -/
inductive Lead where
  | single (s : Symbol)
  | double (one : Symbol) (second : Char) (two : Symbol)
  | blank | slash | quote | digit | letter | other
deriving DecidableEq

def lead (b : UInt8) : Lead :=
  match single? b with
  | some s => .single s
  | none =>
    match double? b with
    | some (one, second, two) => .double one second two
    | none =>
      if IsBlank b then .blank
      else if b = 47 then .slash
      else if b = 34 then .quote
      else if IsDigit b then .digit
      else if IsLetter b then .letter
      else .other

/-- The lexemes that start with a byte, by what it leads. -/
def Lead.Allows (b : UInt8) (more : List UInt8) (c : LexemeClass) : Lead → Prop
  | single s => more = [] ∧ c = .symbol s
  | double one second two =>
    more = [] ∧ c = .symbol one ∨ ∃ d, more = [d] ∧ charOf d = second ∧ c = .symbol two
  | blank => more = [] ∧ c = .skipped
  | slash => more = [] ∧ c = .symbol .slash ∨ ∃ text, more = 47 :: text ∧ 10 ∉ text ∧ c = .skipped
  | quote => ∃ content, more = content ++ [34] ∧ 34 ∉ content ∧ c = .string content
  | digit => (∃ whole, b :: more = whole ∧ (∀ d ∈ whole, isDigit d) ∧ c = .number whole []) ∨
    ∃ whole d fraction, b :: more = whole ++ 46 :: d :: fraction ∧ (∀ d ∈ whole, isDigit d) ∧
      (∀ e ∈ d :: fraction, isDigit e) ∧ c = .number whole (d :: fraction)
  | letter => (∀ d ∈ b :: more, continuesWord d) ∧ c = .word
  | other => False

theorem lead_of_blank (b : UInt8) : IsBlank b → lead b = .blank := by
  revert b
  exact forall_byte (by decide +kernel)

theorem lead_of_digit (b : UInt8) : IsDigit b → lead b = .digit := by
  revert b
  exact forall_byte (by decide +kernel)

theorem lead_of_letter (b : UInt8) : IsLetter b → lead b = .letter := by
  revert b
  exact forall_byte (by decide +kernel)

/-- Bytes of symbols are characters by themselves and end no line. -/
def Plain (b : UInt8) : Prop :=
  10 < b.toNat ∧ b.toNat < 0x80

instance : DecidablePred Plain := fun _ => inferInstanceAs (Decidable (_ ∧ _))

theorem spelling_of_single (b : UInt8) : ∀ s ∈ single? b,
    s.spelling = [charOf b] ∧ Plain b := by
  revert b
  exact forall_byte (by decide +kernel)

theorem spelling_of_double (b : UInt8) : ∀ d ∈ double? b,
    d.1.spelling = [charOf b] ∧ d.2.2.spelling = [charOf b, d.2.1] ∧
      Plain b ∧ 10 < d.2.1.toNat ∧ d.2.1.toNat < 0x80 := by
  revert b
  exact forall_byte (by decide +kernel)

/-- A symbol has one character or two; the first one tells what it leads. -/
theorem spelling_lead (s : Symbol) :
    (∃ b, s.spelling = [charOf b] ∧ (lead b = .single s ∨ (∃ second two, lead b =
      .double s second two) ∨ b = 47 ∧ s = .slash)) ∨
    ∃ b second one, s.spelling = [charOf b, second] ∧ lead b = .double one second s := by
  cases s with
  | leftParen => exact .inl ⟨40, rfl, .inl rfl⟩
  | rightParen => exact .inl ⟨41, rfl, .inl rfl⟩
  | leftBrace => exact .inl ⟨123, rfl, .inl rfl⟩
  | rightBrace => exact .inl ⟨125, rfl, .inl rfl⟩
  | leftBracket => exact .inl ⟨91, rfl, .inl rfl⟩
  | rightBracket => exact .inl ⟨93, rfl, .inl rfl⟩
  | comma => exact .inl ⟨44, rfl, .inl rfl⟩
  | dot => exact .inl ⟨46, rfl, .inl rfl⟩
  | question => exact .inl ⟨63, rfl, .inl rfl⟩
  | colon => exact .inl ⟨58, rfl, .inl rfl⟩
  | semicolon => exact .inl ⟨59, rfl, .inl rfl⟩
  | star => exact .inl ⟨42, rfl, .inl rfl⟩
  | slash => exact .inl ⟨47, rfl, .inr (.inr ⟨rfl, rfl⟩)⟩
  | minus => exact .inl ⟨45, rfl, .inr (.inl ⟨_, _, rfl⟩)⟩
  | plus => exact .inl ⟨43, rfl, .inr (.inl ⟨_, _, rfl⟩)⟩
  | bang => exact .inl ⟨33, rfl, .inr (.inl ⟨_, _, rfl⟩)⟩
  | equal => exact .inl ⟨61, rfl, .inr (.inl ⟨_, _, rfl⟩)⟩
  | less => exact .inl ⟨60, rfl, .inr (.inl ⟨_, _, rfl⟩)⟩
  | greater => exact .inl ⟨62, rfl, .inr (.inl ⟨_, _, rfl⟩)⟩
  | minusMinus => exact .inr ⟨45, _, _, rfl, rfl⟩
  | plusPlus => exact .inr ⟨43, _, _, rfl, rfl⟩
  | bangEqual => exact .inr ⟨33, _, _, rfl, rfl⟩
  | equalEqual => exact .inr ⟨61, _, _, rfl, rfl⟩
  | lessEqual => exact .inr ⟨60, _, _, rfl, rfl⟩
  | greaterEqual => exact .inr ⟨62, _, _, rfl, rfl⟩

theorem allows_of_spelling {s : Symbol} {b : UInt8} {more : List UInt8}
    (h : (b :: more).map charOf = s.spelling) : (lead b).Allows b more (.symbol s) := by
  rw [List.map_cons] at h
  rcases spelling_lead s with ⟨b', hs, hlead⟩ | ⟨b', second, one, hs, hlead⟩
  · rw [hs] at h
    obtain ⟨hb, hmore⟩ := List.cons.inj h
    obtain rfl := charOf_injective hb
    obtain rfl := List.map_eq_nil_iff.1 hmore
    rcases hlead with hlead | ⟨second, two, hlead⟩ | ⟨rfl, rfl⟩
    · rw [hlead]
      exact ⟨rfl, rfl⟩
    · rw [hlead]
      exact .inl ⟨rfl, rfl⟩
    · exact .inl ⟨rfl, rfl⟩
  · rw [hs] at h
    obtain ⟨hb, hmore⟩ := List.cons.inj h
    obtain rfl := charOf_injective hb
    obtain ⟨d, rfl, hd⟩ := List.map_eq_singleton_iff.1 hmore
    rw [hlead]
    exact .inr ⟨d, rfl, hd, rfl⟩

theorem Lexeme.allowed {b : UInt8} {more : List UInt8} {c : LexemeClass}
    (h : Lexeme (b :: more) c) : (lead b).Allows b more c := by
  generalize hbytes : b :: more = bytes at h
  cases h with
  | @blank b' hb =>
    cases hbytes
    rw [lead_of_blank b hb]
    exact ⟨rfl, rfl⟩
  | comment htext =>
    cases hbytes
    exact .inr ⟨_, rfl, htext, rfl⟩
  | symbol hs =>
    rw [← hbytes] at hs
    exact allows_of_spelling hs
  | whole hne hwhole =>
    rw [lead_of_digit b (hwhole b (by simp [← hbytes]))]
    exact .inl ⟨_, hbytes, fun d hd => (isDigit_iff d).2 (hwhole d hd), rfl⟩
  | @decimal whole fraction hne hwhole hne' hfraction =>
    have hb : b ∈ whole := by
      rcases whole with _ | ⟨d, whole⟩
      · exact absurd rfl hne
      · cases hbytes
        simp
    rw [lead_of_digit b (hwhole b hb)]
    rcases fraction with _ | ⟨d, fraction⟩
    · exact absurd rfl hne'
    exact .inr ⟨_, _, _, hbytes, fun d hd => (isDigit_iff d).2 (hwhole d hd),
      fun d hd => (isDigit_iff d).2 (hfraction d hd), rfl⟩
  | word hb hmore =>
    cases hbytes
    rw [lead_of_letter b hb]
    refine ⟨?_, rfl⟩
    intro d hd
    rw [continuesWord_iff]
    rcases List.mem_cons.1 hd with rfl | hd
    · exact .inl hb
    · exact hmore d hd
  | string hcontent =>
    cases hbytes
    exact ⟨_, rfl, hcontent, rfl⟩

theorem Lexeme.ne_nil {bytes : List UInt8} {c : LexemeClass} (h : Lexeme bytes c) : bytes ≠ [] := by
  rintro rfl
  generalize hbytes : ([] : List UInt8) = bytes at h
  cases h with
  | @symbol s _ hs =>
    rw [← hbytes] at hs
    cases s <;> cases hs
  | whole hne => exact hne hbytes.symm
  | decimal => simp at hbytes
  | _ => cases hbytes

/-! ### One way to take a lexeme -/

section

variable {α : Type} {p : α → Bool} {run rest : List α}

theorem takeWhile_run (hrun : ∀ b ∈ run, p b) (hrest : ∀ b ∈ rest.head?, p b = false) :
    (run ++ rest).takeWhile p = run := by
  rw [List.takeWhile_append_of_pos hrun]
  rcases rest with _ | ⟨b, rest⟩
  · simp
  · simp [hrest b rfl]

theorem starts_takeWhile (hrun : ∀ b ∈ run, p b) (h : run <+: rest) : run <+: rest.takeWhile p := by
  obtain ⟨after, rfl⟩ := h
  rw [List.takeWhile_append_of_pos hrun]
  exact List.prefix_append _ _

theorem head?_dropWhile : ∀ b ∈ (rest.dropWhile p).head?, p b = false := by
  intro b hb
  have h := List.head?_dropWhile_not p rest
  rw [Option.mem_def.1 hb] at h
  simpa using h

end

theorem Lead.Allows.unique {l : Lead} {b : UInt8} {more : List UInt8} {c c' : LexemeClass}
    (h : l.Allows b more c) (h' : l.Allows b more c') : c = c' := by
  have hpoint : isDigit 46 = false := rfl
  cases l with
  | single | blank | letter => rw [h.2, h'.2]
  | double | slash =>
    rcases h with ⟨rfl, rfl⟩ | ⟨d, rfl, -, rfl⟩
    · rcases h' with ⟨-, rfl⟩ | ⟨d, hd, -⟩
      · rfl
      · cases hd
    · rcases h' with ⟨hd, -⟩ | ⟨d, -, -, rfl⟩
      · cases hd
      · rfl
  | quote =>
    obtain ⟨content, rfl, -, rfl⟩ := h
    obtain ⟨content', heq, -, rfl⟩ := h'
    rw [List.append_cancel_right heq]
  | digit =>
    rcases h with ⟨whole, hwhole, hdigits, rfl⟩ | ⟨whole, d, fraction, hwhole, hdigits, -, rfl⟩ <;>
    rcases h' with ⟨whole', hwhole', hdigits', rfl⟩ |
      ⟨whole', d', fraction', hwhole', hdigits', -, rfl⟩
    · rw [← hwhole, ← hwhole']
    · have hpoint' := hdigits 46 (by simp [← hwhole, hwhole'])
      simp [hpoint] at hpoint'
    · have hpoint' := hdigits' 46 (by simp [← hwhole', hwhole])
      simp [hpoint] at hpoint'
    · have heq := hwhole.symm.trans hwhole'
      have htake := congrArg (List.takeWhile isDigit) heq
      rw [takeWhile_run hdigits (by simp [hpoint]), takeWhile_run hdigits' (by simp [hpoint])]
        at htake
      subst htake
      obtain ⟨-, hfraction⟩ := List.cons.inj (List.append_cancel_left heq)
      rw [hfraction]
  | other => exact h.elim

theorem Lexeme.class_unique {bytes : List UInt8} {c c' : LexemeClass} (h : Lexeme bytes c)
    (h' : Lexeme bytes c') : c = c' := by
  rcases bytes with _ | ⟨b, more⟩
  · exact absurd rfl h.ne_nil
  · exact h.allowed.unique h'.allowed

theorem Longest.unique {source lexeme lexeme' : List UInt8} {c c' : LexemeClass}
    (h : Longest source lexeme c) (h' : Longest source lexeme' c') : lexeme = lexeme' ∧ c = c' := by
  have hlength : lexeme.length = lexeme'.length :=
    Nat.le_antisymm (h'.longest h.isLexeme h.starts) (h.longest h'.isLexeme h'.starts)
  have heq : lexeme = lexeme' :=
    (List.prefix_of_prefix_length_le h.starts h'.starts (Nat.le_of_eq hlength)).eq_of_length hlength
  subst heq
  exact ⟨rfl, h.isLexeme.class_unique h'.isLexeme⟩

theorem ofText?_text (k : Keyword) : Keyword.ofText? k.text = some k := by
  cases k <;> decide +kernel

theorem Stands.unique {bytes : List UInt8} {line : Nat} {c : LexemeClass} {item item' : Item}
    (h : Stands bytes line c item) (h' : Stands bytes line c item') : item = item' := by
  cases h with
  | skipped =>
    cases h'
    rfl
  | symbol htext =>
    cases h' with
    | symbol htext' => rw [Utf8.encode_injective (htext.symm.trans htext')]
  | number htext =>
    cases h' with
    | number htext' => rw [Utf8.encode_injective (htext.symm.trans htext')]
  | @keyword k htext =>
    cases h' with
    | @keyword k' htext' =>
      have hk := congrArg Keyword.ofText? (Utf8.encode_injective (htext.symm.trans htext'))
      rw [ofText?_text, ofText?_text] at hk
      cases hk
      rfl
    | name htext' hname => exact absurd (Utf8.encode_injective (htext.symm.trans htext')) (hname k)
  | name htext hname =>
    cases h' with
    | @keyword k htext' =>
      exact absurd (Utf8.encode_injective (htext'.symm.trans htext)) (hname k)
    | name htext' => rw [Utf8.encode_injective (htext.symm.trans htext')]
  | string hcontent htext =>
    cases h' with
    | string hcontent' htext' =>
      rw [Utf8.encode_injective (htext.symm.trans htext'),
        Utf8.encode_injective (hcontent.symm.trans hcontent')]
    | notText hcontent' => exact absurd hcontent (hcontent' _)
  | notText hcontent =>
    cases h' with
    | string hcontent' => exact absurd hcontent' (hcontent _)
    | notText => rfl

theorem Takes.unique {before source taken taken' : List UInt8} {item item' : Item}
    (h : Takes before source taken item) (h' : Takes before source taken' item') :
    taken = taken' ∧ item = item' := by
  cases h with
  | lexeme hlongest hitem =>
    cases h' with
    | lexeme hlongest' hitem' =>
      obtain ⟨rfl, rfl⟩ := hlongest.unique hlongest'
      exact ⟨rfl, hitem.unique hitem'⟩
    | unterminated hnone | unexpected hnone =>
      exact absurd hlongest.starts (hnone _ _ hlongest.isLexeme)
  | unterminated hnone hquote htaken =>
    cases h' with
    | lexeme hlongest => exact absurd hlongest.starts (hnone _ _ hlongest.isLexeme)
    | unterminated _ _ htaken' =>
      subst htaken htaken'
      exact ⟨rfl, rfl⟩
    | unexpected _ hb hhead => exact absurd (Option.some.inj (hhead.symm.trans hquote)) hb
  | unexpected hnone hb hhead htaken =>
    cases h' with
    | lexeme hlongest => exact absurd hlongest.starts (hnone _ _ hlongest.isLexeme)
    | unterminated _ hquote => exact absurd (Option.some.inj (hhead.symm.trans hquote)) hb
    | unexpected _ _ hhead' htaken' =>
      obtain rfl := Option.some.inj (hhead.symm.trans hhead')
      subst htaken htaken'
      exact ⟨rfl, rfl⟩

theorem Takes.ne_nil {before source taken : List UInt8} {item : Item}
    (h : Takes before source taken item) : taken ≠ [] := by
  cases h with
  | lexeme hlongest => exact hlongest.isLexeme.ne_nil
  | unterminated _ hquote htaken =>
    rintro rfl
    subst htaken
    cases hquote
  | unexpected _ _ _ htaken => simp [htaken]

/-- A source is cut in one way. -/
theorem Cuts.unique {before source : List UInt8} {spans spans' : List Span}
    (h : Cuts before source spans) (h' : Cuts before source spans') : spans = spans' := by
  induction h generalizing spans' with
  | done =>
    cases h' with
    | done => rfl
    | take htakes hsource => exact absurd (List.append_eq_nil_iff.1 hsource.symm).1 htakes.ne_nil
  | take htakes hsource hrest ih =>
    cases h' with
    | done => exact absurd (List.append_eq_nil_iff.1 hsource.symm).1 htakes.ne_nil
    | take htakes' hsource' hrest' =>
      obtain ⟨rfl, rfl⟩ := htakes.unique htakes'
      obtain rfl := List.append_cancel_left (hsource.symm.trans hsource')
      rw [ih hrest']

end Lexer

end TreeWalk
