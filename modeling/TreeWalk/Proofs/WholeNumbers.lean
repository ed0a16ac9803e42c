import TreeWalk.Proofs.Numerals
import TreeWalk.Proofs.Respacing

/-!
# Whole numbers in a source

A number is scanned as a floating-point number and its text. What is written without a point is read
once more from the text, so a whole number that fits a machine word keeps its value, however many zeros
stand before it, and is written as its digits (`whole_numbers_exact`). The floating-point number counts
only where there is a point or the number does not fit.
-/

namespace TreeWalk

/-- The number that decimal digits stand for: each digit counts ten times as much as the next one. -/
def decimalValue : List UInt8 → Nat
  | [] => 0
  | b :: rest => (b.toNat - 48) * tenPow rest.length + decimalValue rest

/-! ### Digits -/

namespace Lexer

variable {digits fraction : List UInt8}

theorem natOfDigits_digits (n : Nat) (digits : List UInt8) :
    natOfDigits n (digits.map charOf) = n * tenPow digits.length + decimalValue digits := by
  induction digits generalizing n with
  | nil => simp [natOfDigits, decimalValue, tenPow]
  | cons b rest ih =>
    have hpow : tenPow (rest.length + 1) = 10 * tenPow rest.length := by
      simp only [tenPow, Nat.pow_eq, Nat.pow_succ, Nat.mul_comm]
    have hstep : natOfDigits n ((b :: rest).map charOf) =
        natOfDigits (n * 10 + (b.toNat - 48)) (rest.map charOf) := by
      rw [List.map_cons, natOfDigits, List.foldl_cons, toNat_charOf]
      rfl
    rw [hstep, ih, decimalValue, List.length_cons, hpow, Nat.add_mul, Nat.mul_assoc, Nat.add_assoc]

theorem natOfDigits_zero (digits : List UInt8) :
    natOfDigits 0 (digits.map charOf) = decimalValue digits := by
  rw [natOfDigits_digits, Nat.zero_mul, Nat.zero_add]

theorem isDigit_charOf (b : UInt8) : IsDigit b → (charOf b).isDigit = true ∧ charOf b ≠ '.' := by
  revert b
  exact forall_byte (by decide +kernel)

theorem toList_asciiText (bytes : List UInt8) : (asciiText bytes).toList = bytes.map charOf :=
  String.toList_ofList

/-- Digits are read as the number that they stand for, if it fits. -/
theorem readInt64?_digits (hne : digits ≠ []) (hdigits : ∀ b ∈ digits, IsDigit b) :
    readInt64? (digits.map charOf) = int64? (decimalValue digits) := by
  have hchars : ∀ c ∈ digits.map charOf, c.isDigit := by
    intro c hc
    obtain ⟨b, hb, rfl⟩ := List.mem_map.1 hc
    exact (isDigit_charOf b (hdigits b hb)).1
  rw [readInt64?, splitSign_of_digits hchars]
  simp only
  rw [if_pos ⟨by simpa using hne, List.all_eq_true.2 hchars⟩, natOfDigits_zero]
  rfl

/-- Without a point the text decides; what was scanned counts only if the text does not fit. -/
theorem numberLiteral_digits (hne : digits ≠ []) (hdigits : ∀ b ∈ digits, IsDigit b) (x : Float) :
    numberLiteral (asciiText digits) x = (int64? (decimalValue digits)).elim (.float x) .int := by
  have hpoint : (digits.map charOf).contains '.' = false := by
    rw [List.contains_eq_any_beq, List.any_eq_false]
    intro c hc
    obtain ⟨b, hb, rfl⟩ := List.mem_map.1 hc
    rw [beq_iff_eq]
    exact (isDigit_charOf b (hdigits b hb)).2.symm
  rw [numberLiteral, toList_asciiText, hpoint, if_neg Bool.false_ne_true,
    readInt64?_digits hne hdigits]
  cases int64? (decimalValue digits) with
  | none => rfl
  | some n => rfl

theorem numberLiteral_point (x : Float) :
    numberLiteral (asciiText (digits ++ 46 :: fraction)) x = .float x := by
  have hpoint : ((digits ++ 46 :: fraction).map charOf).contains '.' = true := by
    rw [List.contains_iff_mem]
    exact List.mem_map.2 ⟨46, by simp, rfl⟩
  rw [numberLiteral, toList_asciiText, hpoint, if_pos rfl]

/-- Where a literal is a machine word, what was scanned does not count. -/
theorem numberLiteral_int {lexeme : String} {x : Float} {n : Int64}
    (h : numberLiteral lexeme x = .int n) (y : Float) : numberLiteral lexeme y = .int n := by
  unfold numberLiteral at h ⊢
  split at h
  · cases h
  · next hpoint =>
    rw [if_neg hpoint]
    split at h
    · exact h
    · cases h

/-! ### Scanning -/

/-- A source that is one lexeme. -/
theorem tokens_of_lexeme {bytes : List UInt8} {c : LexemeClass} {t : Token} (h : Lexeme bytes c)
    (ht : Stands bytes (1 + newlines bytes) c (.token t)) :
    tokens bytes = .ok [t, Token.endOn (1 + newlines bytes)] := by
  have hcuts : Cuts [] bytes [⟨bytes, .token t⟩] :=
    .take (.lexeme h.longest_self ht) (List.append_nil _).symm .done
  exact tokens_eq_ok.2 ⟨_, hcuts, by simp, rfl⟩

theorem ascii_of_digits (hdigits : ∀ b ∈ digits, IsDigit b) : ∀ b ∈ digits, b.toNat < 0x80 :=
  fun b hb => toNat_lt_of_digit b ((isDigit_iff b).2 (hdigits b hb))

theorem tokens_whole (hne : digits ≠ []) (hdigits : ∀ b ∈ digits, IsDigit b) :
    ∃ line, tokens digits =
      .ok [numberToken line digits [] (asciiText digits), Token.endOn line] :=
  ⟨_, tokens_of_lexeme (.whole hne hdigits) (stands_number (ascii_of_digits hdigits))⟩

theorem tokens_decimal (hne : digits ≠ []) (hdigits : ∀ b ∈ digits, IsDigit b)
    (hne' : fraction ≠ []) (hfraction : ∀ b ∈ fraction, IsDigit b) :
    ∃ line, tokens (digits ++ 46 :: fraction) =
      .ok [numberToken line digits fraction (asciiText (digits ++ 46 :: fraction)),
        Token.endOn line] := by
  refine ⟨_, tokens_of_lexeme (.decimal hne hdigits hne' hfraction) (stands_number ?_)⟩
  intro b hb
  rcases List.mem_append.1 hb with hb | hb
  · exact ascii_of_digits hdigits b hb
  · rcases List.mem_cons.1 hb with rfl | hb
    · decide
    · exact ascii_of_digits hfraction b hb

/-- A number is taken whole before a semicolon. -/
theorem longest_digits {rest : List UInt8} (hne : digits ≠ []) (hdigits : ∀ b ∈ digits, IsDigit b) :
    Longest (digits ++ 59 :: rest) digits (.number digits []) := by
  refine (Lexeme.whole hne hdigits).longest_before fun after c' hlexeme => ?_
  obtain ⟨b, more, rfl⟩ := List.exists_cons_of_ne_nil hne
  have hmem : (59 : UInt8) ∈ b :: (more ++ 59 :: after) := by simp
  have hallows := hlexeme.allowed
  rw [lead_of_digit b (hdigits b (by simp))] at hallows
  rcases hallows with ⟨whole, rfl, hwhole, -⟩ | ⟨whole, d, fraction, heq, hwhole, hfraction, -⟩
  · exact absurd (hwhole 59 hmem) (by decide)
  · have hmem : (59 : UInt8) ∈ whole ++ 46 :: d :: fraction := heq ▸ hmem
    rcases List.mem_append.1 hmem with hmem | hmem
    · exact absurd (hwhole 59 hmem) (by decide)
    · rcases List.mem_cons.1 hmem with hmem | hmem
      · exact absurd hmem (by decide)
      · exact absurd (hfraction 59 hmem) (by decide)

/-- A statement that prints what digits stand for. -/
def printing (digits : List UInt8) : List UInt8 :=
  Utf8.encode "print " ++ (digits ++ Utf8.encode ";")

theorem tokens_printing (hne : digits ≠ []) (hdigits : ∀ b ∈ digits, IsDigit b) :
    ∃ first second third last, tokens (printing digits) = .ok
      [⟨.keyword .print_, Keyword.print_.text, first⟩,
        numberToken second digits [] (asciiText digits), ⟨.symbol .semicolon, ";", third⟩,
        Token.endOn last] := by
  have hprint : Utf8.encode Keyword.print_.text = [112, 114, 105, 110, 116] := by decide +kernel
  have hsemicolon : Utf8.encode ";" = [59] := by decide +kernel
  have hwritten : printing digits = [112, 114, 105, 110, 116] ++ 32 :: (digits ++ [59]) := by
    have hstart : Utf8.encode "print " = [112, 114, 105, 110, 116, 32] := by decide +kernel
    rw [printing, hstart, hsemicolon]
    rfl
  have hword : Lexeme [112, 114, 105, 110, 116] .word := .word (by decide) (by decide +kernel)
  have hsymbol : Lexeme [59] (.symbol .semicolon) := .symbol (by decide)
  have hlast (before : List UInt8) :
      ∃ third, Cuts before [59] [⟨[59], .token ⟨.symbol .semicolon, ";", third⟩⟩] :=
    ⟨_, .take (.lexeme hsymbol.longest_self (.symbol hsemicolon.symm)) (List.append_nil _).symm .done⟩
  have hnumber (before : List UInt8) : ∃ second third, Cuts before (digits ++ [59])
      [⟨digits, .token (numberToken second digits [] (asciiText digits))⟩,
        ⟨[59], .token ⟨.symbol .semicolon, ";", third⟩⟩] := by
    obtain ⟨third, hrest⟩ := hlast (before ++ digits)
    exact ⟨_, third, .take (.lexeme (longest_digits hne hdigits)
      (stands_number (ascii_of_digits hdigits))) rfl hrest⟩
  obtain ⟨second, third, hrest⟩ := hnumber ([] ++ [112, 114, 105, 110, 116] ++ [32])
  have hblank : IsBlank 32 := by decide
  have hcuts := Cuts.take (.lexeme (hword.longest_before_blank (by simp) hblank)
    (.keyword hprint.symm)) rfl (.take (takes_blank _ hblank) rfl hrest)
  exact ⟨_, second, third, _, tokens_eq_ok.2 ⟨_, hwritten ▸ hcuts, by simp, rfl⟩⟩

end Lexer

/-! ### Parsing -/

variable {x : Float} {lexeme : String} {n first second third last : Nat}

theorem parseExpression_number :
    parseExpression [⟨.number x, lexeme, first⟩, Token.endOn last] n =
      (.ok (.literal (numberLiteral lexeme x)), n) :=
  rfl

theorem parseProgram_print :
    parseProgram [⟨.keyword .print_, Keyword.print_.text, first⟩, ⟨.number x, lexeme, second⟩,
      ⟨.symbol .semicolon, ";", third⟩, Token.endOn last] n =
      (.ok [.print (.literal (numberLiteral lexeme x))], n) :=
  rfl

theorem primary_number (fuel line : Nat) (rest : List Token) (c : Cursor) :
    Production.primary (fuel + 1) { c with rest := ⟨.number x, lexeme, line⟩ :: rest } =
      .done (.literal (numberLiteral lexeme x)) { c with rest := rest } :=
  rfl

/-- The text of a number token decides alone whether it is a machine word, and which. -/
theorem primary_int {fuel line : Nat} {rest : List Token} {c c' : Cursor} {k : Int64} (y : Float)
    (h : Production.primary fuel { c with rest := ⟨.number x, lexeme, line⟩ :: rest } =
      .done (.literal (.int k)) c') :
    Production.primary fuel { c with rest := ⟨.number y, lexeme, line⟩ :: rest } =
      .done (.literal (.int k)) c' := by
  cases fuel with
  | zero =>
    rw [Production.primary] at h
    cases h
  | succ fuel =>
    rw [primary_number] at h ⊢
    obtain ⟨hliteral, rfl⟩ := Reply.done.inj h
    rw [Lexer.numberLiteral_int (Expr.literal.inj hliteral) y]

/-! ### Machine words -/

theorem int64?_eq_some {v : Int} {k : Int64} : int64? v = some k ↔ k.toInt = v := by
  constructor
  · intro h
    unfold int64? at h
    split at h
    · next hbounds => rw [← Option.some.inj h, Int64.toInt_ofInt_of_le hbounds.1 hbounds.2]
    · cases h
  · rintro rfl
    exact int64?_toInt k

theorem exists_int64 {v : Nat} (h : (v : Int) ≤ Int64.maxValue.toInt) : ∃ k : Int64, k.toInt = v := by
  rw [Int64.toInt_maxValue] at h
  exact ⟨.ofInt v, Int64.toInt_ofInt_of_le (by omega) (by omega)⟩

theorem int64?_of_gt {v : Int} (h : Int64.maxValue.toInt < v) : int64? v = none := by
  rw [Option.eq_none_iff_forall_ne_some]
  intro k hk
  have hle := k.toInt_le
  rw [int64?_eq_some.1 hk] at hle
  omega

/-- A number that is not negative is written as its digits alone. -/
theorem intText_natCast (v : Nat) : intText v = toString v := by
  rw [intText, if_neg (by omega)]
  rfl

/-! ### Sessions -/

namespace Session

variable {s : Session} {source : List UInt8} {k : Int64}

theorem parseExpression_of_number
    (h : Lexer.tokens source = .ok [⟨.number x, lexeme, first⟩, Token.endOn last]) :
    s.parseExpression source = (.ok (.literal (numberLiteral lexeme x)), s) := by
  rw [parseExpression, h]
  simp only [parseExpression_number]

theorem parse_of_print (h : Lexer.tokens source = .ok
    [⟨.keyword .print_, Keyword.print_.text, first⟩, ⟨.number x, lexeme, second⟩,
      ⟨.symbol .semicolon, ";", third⟩, Token.endOn last]) :
    s.parse source = (.ok [.print (.literal (numberLiteral lexeme x))], s) := by
  rw [parse, h]
  simp only [parseProgram_print]

theorem run_print (h : s.parse source = (.ok [.print (.literal (.int k))], s)) (limit : Nat) :
    s.run (limit + 4) source =
      some (.ok [none], { s with machine :=
        { s.machine with output := s.machine.output ++ intText k.toInt ++ "\n" } }) := by
  rw [run, h, ← s.machine.heap.text_int k]
  rfl

end Session

variable {digits fraction : List UInt8}

/-- Digits are the whole number that they stand for, if it is a machine word, and printing them adds it
to the output, without leading zeros and with a line end. Otherwise, and where there is a fraction,
they are the nearest floating-point number. What was scanned as a floating-point number never shows in
a machine word. -/
theorem whole_numbers_exact (s : Session) (hne : digits ≠ [])
    (hdigits : ∀ b ∈ digits, Lexer.IsDigit b) :
    ((decimalValue digits : Int) ≤ Int64.maxValue.toInt → ∃ k : Int64,
      k.toInt = decimalValue digits ∧ s.parseExpression digits = (.ok (.literal (.int k)), s) ∧
      ∀ limit, s.run (limit + 4) (Lexer.printing digits) = some (.ok [none], { s with machine :=
        { s.machine with output := s.machine.output ++ toString (decimalValue digits) ++ "\n" } })) ∧
    (Int64.maxValue.toInt < decimalValue digits →
      s.parseExpression digits =
        (.ok (.literal (.float (nearest (decimalValue digits) 0))), s)) ∧
    (fraction ≠ [] → (∀ b ∈ fraction, Lexer.IsDigit b) →
      s.parseExpression (digits ++ 46 :: fraction) = (.ok (.literal (.float
        (nearest (decimalValue (digits ++ fraction)) (-(fraction.length : Int))))), s)) ∧
    ∀ (fuel line : Nat) (lexeme : String) (rest : List Token) (c c' : Cursor) (k : Int64) (x y : Float),
      Production.primary fuel { c with rest := ⟨.number x, lexeme, line⟩ :: rest } =
        .done (.literal (.int k)) c' →
      Production.primary fuel { c with rest := ⟨.number y, lexeme, line⟩ :: rest } =
        .done (.literal (.int k)) c' := by
  refine ⟨fun hfits => ?_, fun hlarge => ?_, fun hne' hfraction => ?_,
    fun _ _ _ _ _ _ _ _ y => primary_int y⟩
  · obtain ⟨k, hk⟩ := exists_int64 hfits
    have hliteral (x : Float) : numberLiteral (Lexer.asciiText digits) x = .int k := by
      rw [Lexer.numberLiteral_digits hne hdigits, int64?_eq_some.2 hk,
        Option.elim_some]
    refine ⟨k, hk, ?_, fun limit => ?_⟩
    · obtain ⟨line, htokens⟩ := Lexer.tokens_whole hne hdigits
      rw [Session.parseExpression_of_number htokens, hliteral]
    · obtain ⟨first, second, third, last, htokens⟩ := Lexer.tokens_printing hne hdigits
      have hparse := Session.parse_of_print (s := s) htokens
      rw [hliteral] at hparse
      rw [Session.run_print hparse, hk, intText_natCast]
  · obtain ⟨line, htokens⟩ := Lexer.tokens_whole hne hdigits
    rw [Session.parseExpression_of_number htokens, Lexer.numberLiteral_digits hne hdigits,
      int64?_of_gt hlarge, List.append_nil, Lexer.natOfDigits_zero]
    rfl
  · obtain ⟨line, htokens⟩ := Lexer.tokens_decimal hne hdigits hne' hfraction
    rw [Session.parseExpression_of_number htokens, Lexer.numberLiteral_point, Lexer.natOfDigits_zero]

/-- Zeros in front, the first number that does not fit, and a fraction. -/
theorem whole_numbers_exact_leadingZeros :
    (∃ k : Int64, k.toInt = 7 ∧
      (Session.start 0).parseExpression [48, 48, 55] = (.ok (.literal (.int k)), Session.start 0) ∧
      (Session.start 0).run 4 (Utf8.encode "print 007;") =
        some (.ok [none], ⟨{ Machine.initial 0 with output := "7\n" }, 0⟩)) ∧
    (Session.start 0).parseExpression
      [57, 50, 50, 51, 51, 55, 50, 48, 51, 54, 56, 53, 52, 55, 55, 53, 56, 48, 56] =
        (.ok (.literal (.float (nearest 9223372036854775808 0))), Session.start 0) ∧
    (Session.start 0).parseExpression [48, 48, 55, 46, 53, 48] =
      (.ok (.literal (.float (nearest 750 (-2)))), Session.start 0) := by
  have hwritten : Utf8.encode "print 007;" = Lexer.printing [48, 48, 55] := by decide +kernel
  obtain ⟨hword, -, hfraction, -⟩ :=
    @whole_numbers_exact [48, 48, 55] [53, 48] (.start 0) (by decide) (by decide +kernel)
  obtain ⟨k, hk, hparse, hrun⟩ := hword (by decide +kernel)
  obtain ⟨-, hlarge, -⟩ := @whole_numbers_exact
    [57, 50, 50, 51, 51, 55, 50, 48, 51, 54, 56, 53, 52, 55, 55, 53, 56, 48, 56] [] (.start 0)
    (by decide +kernel) (by decide +kernel)
  exact ⟨⟨k, hk, hparse, hwritten ▸ hrun 0⟩, hlarge (by decide +kernel),
    hfraction (by decide +kernel) (by decide +kernel)⟩

end TreeWalk
