import TreeWalk.Number.Reading
import TreeWalk.Number.Written

/-!
# Whole numbers read back

The digits of a number spell that number, so a machine word is read from its own text
(`readInt64?_intText`), and two numbers have different texts.
-/

namespace TreeWalk

theorem natOfDigits_eq (n : Nat) (digits : List Char) :
    natOfDigits n digits = Nat.ofDigitChars 10 digits n := by
  simp only [natOfDigits, Nat.ofDigitChars, Nat.mul_comm]

theorem toList_natText (n : Nat) : (natText n).toList = Nat.toDigits 10 n :=
  String.toList_ofList

theorem natOfDigits_natText (n : Nat) : natOfDigits 0 (natText n).toList = n := by
  rw [natOfDigits_eq, toList_natText]
  exact Nat.ofDigitChars_toDigits (by decide) (by decide)

theorem isDigit_of_mem_natText {n : Nat} {c : Char} (h : c ∈ (natText n).toList) : c.isDigit := by
  rw [toList_natText] at h
  exact Nat.isDigit_of_mem_toDigits (by decide) (by decide) h

theorem natText_ne_nil (n : Nat) : (natText n).toList ≠ [] := by
  rw [toList_natText]
  exact Nat.toDigits_ne_nil

theorem toList_intText (n : Int) : (intText n).toList =
    if n < 0 then '-' :: (natText n.natAbs).toList else (natText n.natAbs).toList := by
  unfold intText
  split
  · simp
  · rfl

theorem intText_ne_nil (n : Int) : (intText n).toList ≠ [] := by
  rw [toList_intText]
  split
  · exact List.cons_ne_nil _ _
  · exact natText_ne_nil _

/-- A number is written with digits and the minus sign. -/
theorem forall_mem_intText {P : Char → Prop} (n : Int) (hminus : P '-')
    (hdigit : ∀ c : Char, c.isDigit → P c) : ∀ c ∈ (intText n).toList, P c := by
  have hdigits : ∀ c ∈ (natText n.natAbs).toList, P c :=
    fun c hc => hdigit c (isDigit_of_mem_natText hc)
  rw [toList_intText]
  split
  · exact List.forall_mem_cons.2 ⟨hminus, hdigits⟩
  · exact hdigits

/-- Neither sign is a digit, so the digits are what is left of them. -/
theorem splitSign_of_digits {cs : List Char} (h : ∀ c ∈ cs, c.isDigit) : splitSign cs = (false, cs) := by
  unfold splitSign
  split
  · exact absurd (h '-' List.mem_cons_self) (by decide)
  · exact absurd (h '+' List.mem_cons_self) (by decide)
  · rfl

theorem splitSign_intText (n : Int) :
    splitSign (intText n).toList = (decide (n < 0), (natText n.natAbs).toList) := by
  rw [toList_intText]
  split
  · next h => simp [splitSign, h]
  · next h =>
    rw [splitSign_of_digits fun c hc => isDigit_of_mem_natText hc]
    simp [h]

theorem int64?_toInt (n : Int64) : int64? n.toInt = some n := by
  have hle := n.minValue_le_toInt
  have hlt := n.toInt_lt
  rw [int64?, if_pos ⟨hle, hlt⟩, Int64.ofInt_toInt]

theorem readInt64?_intText (n : Int64) : readInt64? (intText n.toInt).toList = some n := by
  have hdigits : (natText n.toInt.natAbs).toList.all Char.isDigit :=
    List.all_eq_true.2 fun c hc => isDigit_of_mem_natText hc
  have hsigned : Exact.signed (decide (n.toInt < 0)) n.toInt.natAbs = n.toInt := by
    by_cases h : n.toInt < 0
    · simp only [Exact.signed, h, decide_true, if_true]
      omega
    · simp only [Exact.signed, h, decide_false, Bool.false_eq_true, if_false]
      omega
  rw [readInt64?, splitSign_intText]
  simp only
  rw [if_pos ⟨natText_ne_nil _, hdigits⟩, natOfDigits_natText, hsigned, int64?_toInt]

/-- What starts with neither a digit nor a sign is no number. -/
theorem readInt64?_eq_none {c : Char} {cs : List Char} (hdigit : c.isDigit = false) (hminus : c ≠ '-')
    (hplus : c ≠ '+') : readInt64? (c :: cs) = none := by
  have hsplit : splitSign (c :: cs) = (false, c :: cs) := by
    unfold splitSign
    split
    · next h => exact absurd (List.cons.inj h).1 hminus
    · next h => exact absurd (List.cons.inj h).1 hplus
    · rfl
  rw [readInt64?, hsplit]
  simp [hdigit]

end TreeWalk
