/-!
# Blank characters

The characters with the Unicode property `White_Space`, and removing them from both ends of a text.
-/

namespace TreeWalk.Text

/-- The characters with the property `White_Space`, as ranges of code points in increasing order. -/
def blankRanges : List (Nat × Nat) :=
  [(0x09, 0x0D), (0x20, 0x20), (0x85, 0x85), (0xA0, 0xA0), (0x1680, 0x1680), (0x2000, 0x200A),
    (0x2028, 0x2029), (0x202F, 0x202F), (0x205F, 0x205F), (0x3000, 0x3000)]

def isBlank (c : Char) : Bool :=
  blankRanges.any fun (lo, hi) => lo ≤ c.toNat && c.toNat ≤ hi

/-- Drops the blank characters at both ends. -/
def trim (cs : List Char) : List Char :=
  ((cs.dropWhile isBlank).reverse.dropWhile isBlank).reverse

/-- No range of the table reaches into the decimal digits. -/
theorem isBlank_of_isDigit {c : Char} (h : c.isDigit = true) : isBlank c = false := by
  simp only [Char.isDigit, Bool.and_eq_true, decide_eq_true_eq] at h
  have hlow : 48 ≤ c.toNat := UInt32.le_iff_toNat_le.1 h.1
  have hhigh : c.toNat ≤ 57 := UInt32.le_iff_toNat_le.1 h.2
  have hapart : ∀ r ∈ blankRanges, r.2 < 48 ∨ 57 < r.1 := by decide
  rw [isBlank, List.any_eq_false]
  intro r hr
  have hout := hapart r hr
  simp only [Bool.and_eq_true, decide_eq_true_eq]
  omega

/-- Blanks are dropped up to the first character that is none. -/
theorem dropWhile_isBlank {p t : List Char} (hp : ∀ c ∈ p, isBlank c)
    (ht : ∀ c ∈ t.head?, isBlank c = false) : (p ++ t).dropWhile isBlank = t := by
  rw [List.dropWhile_append_of_pos hp]
  cases t with
  | nil => rfl
  | cons c t => rw [List.dropWhile_cons, ht c rfl, if_neg Bool.false_ne_true]

/-- What neither starts nor ends with a blank is left as it is when blanks stand around it. -/
theorem trim_between {p t q : List Char} (hp : ∀ c ∈ p, isBlank c) (hq : ∀ c ∈ q, isBlank c)
    (hfirst : ∀ c ∈ t.head?, isBlank c = false) (hlast : ∀ c ∈ t.getLast?, isBlank c = false) :
    trim (p ++ t ++ q) = t := by
  have hbehind : (t ++ q).reverse.dropWhile isBlank = t.reverse := by
    rw [List.reverse_append]
    refine dropWhile_isBlank (fun c hc => hq c (List.mem_reverse.1 hc)) fun c hc => ?_
    rw [List.head?_reverse] at hc
    exact hlast c hc
  cases t with
  | nil =>
    -- with nothing in between, the first pass drops the blanks behind as well
    have hall : ∀ c ∈ p ++ q, isBlank c := fun c hc => (List.mem_append.1 hc).elim (hp c) (hq c)
    have hnone : (p ++ q ++ []).dropWhile isBlank = [] := dropWhile_isBlank hall (by simp)
    rw [List.append_nil] at hnone ⊢
    rw [trim, hnone]
    rfl
  | cons c t =>
    have hbefore : (p ++ (c :: t ++ q)).dropWhile isBlank = c :: t ++ q :=
      dropWhile_isBlank hp hfirst
    rw [trim, List.append_assoc, hbefore, hbehind, List.reverse_reverse]

end TreeWalk.Text
