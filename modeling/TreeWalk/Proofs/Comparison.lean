import TreeWalk.Proofs.Rounding
import TreeWalk.Proofs.Subrun

/-!
# Comparison of machine words

`==` compares machine words as they are, the order operators compare what they are converted to. So
the five operators agree about two machine words (`Agree`) unless the words are different and are
converted to the same floating-point number (`Merged`).
-/

namespace TreeWalk

variable {m m₁ m₂ : Machine} {left right : Expr} {operator : Token} {v w x : Value}

/-! ### Values of expressions -/

/-- The expression has the value `v` and leaves `m'`. -/
def Machine.Gives (m : Machine) (e : Expr) (v : Value) (m' : Machine) : Prop :=
  ∃ limit, m.evaluate limit e = some (.ok v, m')

namespace Machine

theorem gives_iff {e : Expr} :
    m.Gives e v m₁ ↔ ∃ limit, State.run limit ⟨.evaluate e, [], m⟩ = some (.value v, m₁) := by
  refine exists_congr fun limit => ?_
  rw [evaluate]
  split
  next heq =>
    rw [heq]
    exact ⟨fun h => by cases h; rfl, fun h => by cases h; rfl⟩
  next heq =>
    rw [heq]
    exact ⟨nofun, nofun⟩
  next hvalue _ => exact ⟨nofun, fun h => absurd h (hvalue v m₁)⟩

theorem Gives.unique {e : Expr} (h : m.Gives e v m₁) (h' : m.Gives e w m₂) : v = w := by
  obtain ⟨limit, hrun⟩ := gives_iff.1 h
  obtain ⟨limit', hrun'⟩ := gives_iff.1 h'
  cases State.run_unique hrun hrun'
  rfl

theorem gives_literal (m : Machine) (value : Literal) :
    m.Gives (.literal value) (.ofLiteral value) m :=
  ⟨2, rfl⟩

/-- The operands are evaluated one after the other, then the operator is applied. -/
theorem Gives.binary (hleft : m.Gives left v m₁) (hright : m₁.Gives right w m₂)
    (hvalue : m₂.heap.binary v operator w = .ok x) :
    m.Gives (.binary left operator right) x m₂ := by
  obtain ⟨limit₁, hrun₁⟩ := gives_iff.1 hleft
  obtain ⟨limit₂, hrun₂⟩ := gives_iff.1 hright
  obtain ⟨count₁, hcount₁⟩ := State.run_below hrun₁ [.binaryLeft operator right]
  obtain ⟨count₂, hcount₂⟩ := State.run_below hrun₂ [.binaryRight v operator]
  refine gives_iff.2 ⟨count₁ + (count₂ + 2 + 1) + 1, ?_⟩
  refine (hcount₁ (count₂ + 2 + 1)).trans ((hcount₂ 2).trans ?_)
  show State.run 1 (State.settle (m₂.heap.binary v operator w) [] m₂) = _
  rw [hvalue]
  rfl

end Machine

/-! ### Answers to comparisons -/

variable {s : Symbol} {a b : Int64} {answer : Bool}

/-- Whatever the operands are, if their values are `a` and `b` the operator gives the answer. -/
def Answers (s : Symbol) (a b : Int64) (answer : Bool) : Prop :=
  ∀ (m m₁ m₂ : Machine) (left right : Expr) (operator : Token), operator.kind = .symbol s →
    m.Gives left (.int a) m₁ → m₁.Gives right (.int b) m₂ →
      m.Gives (.binary left operator right) (.bool answer) m₂

/-- The comparison is true. -/
def Affirms (s : Symbol) (a b : Int64) : Prop := Answers s a b true

/-- The comparison is false. -/
def Denies (s : Symbol) (a b : Int64) : Prop := Answers s a b false

theorem answers_of_binary
    (h : ∀ heap : Heap, ∀ operator : Token, operator.kind = .symbol s →
      heap.binary (.int a) operator (.int b) = .ok (.bool answer)) : Answers s a b answer :=
  fun _ _ _ _ _ _ hkind hleft hright => hleft.binary hright (h _ _ hkind)

theorem Answers.unique {answer' : Bool} (h : Answers s a b answer) (h' : Answers s a b answer') :
    answer = answer' := by
  let m : Machine := .initial 0
  have hleft : m.Gives (.literal (.int a)) (.int a) m := m.gives_literal (.int a)
  have hright : m.Gives (.literal (.int b)) (.int b) m := m.gives_literal (.int b)
  have hsame := (h m m m _ _ ⟨.symbol s, "", 1⟩ rfl hleft hright).unique
    (h' m m m _ _ ⟨.symbol s, "", 1⟩ rfl hleft hright)
  cases hsame
  rfl

theorem Answers.affirms_iff (h : Answers s a b answer) : Affirms s a b ↔ answer = true := by
  constructor
  · exact fun haffirms => h.unique haffirms
  · rintro rfl
    exact h

theorem same_int (h : Heap) (a b : Int64) : h.same (.int a) (.int b) = (a == b) := by
  unfold Heap.same
  cases h.arrays.size <;> rfl

/-- What an operator that compares says about two machine words. -/
def verdict? (s : Symbol) (a b : Int64) : Option Bool :=
  match s with
  | .equalEqual => some (a == b)
  | .less => some (Float.ofInt a.toInt < Float.ofInt b.toInt)
  | .lessEqual => some (Float.ofInt a.toInt ≤ Float.ofInt b.toInt)
  | .greater => some (Float.ofInt b.toInt < Float.ofInt a.toInt)
  | .greaterEqual => some (Float.ofInt b.toInt ≤ Float.ofInt a.toInt)
  | _ => none

theorem answers_verdict (h : verdict? s a b = some answer) : Answers s a b answer := by
  refine answers_of_binary fun heap operator hkind => ?_
  rw [Heap.binary, hkind]
  unfold verdict? at h
  split at h
  · cases h
    rw [← same_int heap a b]
  all_goals cases h
  all_goals rfl

/-! ### Machine words as floating-point numbers -/

/-- Both words are converted to their nearest floating-point numbers, and these are compared. -/
theorem compare_toInt (a b : Int64) :
    (Float.ofInt a.toInt < Float.ofInt b.toInt ↔ rounded a.toInt < rounded b.toInt) ∧
    (Float.ofInt a.toInt ≤ Float.ofInt b.toInt ↔ rounded a.toInt ≤ rounded b.toInt) ∧
    ((Float.ofInt a.toInt == Float.ofInt b.toInt) = true ↔ rounded a.toInt = rounded b.toInt) := by
  have hbound : ∀ c : Int64, c.toInt.natAbs < 2 ^ 64 := by
    intro c
    have hlow := c.le_toInt
    have hhigh := c.toInt_lt
    omega
  exact compare_ofInt (hbound a) (hbound b)

theorem affirms_equal : Affirms .equalEqual a b ↔ a = b :=
  (answers_verdict rfl).affirms_iff.trans beq_iff_eq

theorem affirms_less : Affirms .less a b ↔ rounded a.toInt < rounded b.toInt :=
  (answers_verdict rfl).affirms_iff.trans (decide_eq_true_iff.trans (compare_toInt a b).1)

theorem affirms_lessEqual : Affirms .lessEqual a b ↔ rounded a.toInt ≤ rounded b.toInt :=
  (answers_verdict rfl).affirms_iff.trans (decide_eq_true_iff.trans (compare_toInt a b).2.1)

theorem affirms_greater : Affirms .greater a b ↔ rounded b.toInt < rounded a.toInt :=
  (answers_verdict rfl).affirms_iff.trans (decide_eq_true_iff.trans (compare_toInt b a).1)

theorem affirms_greaterEqual : Affirms .greaterEqual a b ↔ rounded b.toInt ≤ rounded a.toInt :=
  (answers_verdict rfl).affirms_iff.trans (decide_eq_true_iff.trans (compare_toInt b a).2.1)

/-- Two different words are converted to the same floating-point number. -/
def Merged (a b : Int64) : Prop :=
  a ≠ b ∧ (Float.ofInt a.toInt == Float.ofInt b.toInt) = true

theorem merged_iff : Merged a b ↔ a ≠ b ∧ rounded a.toInt = rounded b.toInt :=
  and_congr_right fun _ => (compare_toInt a b).2.2

theorem Merged.symm (h : Merged a b) : Merged b a := by
  obtain ⟨hne, hrounded⟩ := merged_iff.1 h
  exact merged_iff.2 ⟨hne.symm, hrounded.symm⟩

/-- Words are converted exactly up to two to the power of 53. -/
theorem not_merged_of_le (ha : a.toInt.natAbs ≤ 2 ^ 53) (hb : b.toInt.natAbs ≤ 2 ^ 53) :
    ¬Merged a b := by
  rintro hmerged
  obtain ⟨hne, hrounded⟩ := merged_iff.1 hmerged
  rw [rounded_of_le ha, rounded_of_le hb] at hrounded
  exact hne (Int64.toInt_inj.1 hrounded)

/-- Words that are not merged stay in their order. -/
theorem rounded_lt_iff (h : ¬Merged a b) : rounded a.toInt < rounded b.toInt ↔ a < b := by
  rw [Int64.lt_iff_toInt_lt]
  constructor
  · intro hlt
    rcases Int.lt_or_le a.toInt b.toInt with hab | hba
    · exact hab
    · exact absurd (rounded_mono hba) (Int.not_le.2 hlt)
  · intro hlt
    rcases Int.lt_or_eq_of_le (rounded_mono (Int.le_of_lt hlt)) with hab | heq
    · exact hab
    · have hne : a ≠ b := fun hab => Int.ne_of_lt hlt (congrArg Int64.toInt hab)
      exact absurd (merged_iff.2 ⟨hne, heq⟩) h

/-! ### Agreement -/

def ExactlyOne (p q r : Prop) : Prop :=
  (p ∧ ¬q ∧ ¬r) ∨ (¬p ∧ q ∧ ¬r) ∨ (¬p ∧ ¬q ∧ r)

/-- Exactly one of `<`, `==` and `>` is true, and `<=` and `>=` are true where they should be. -/
def Agree (a b : Int64) : Prop :=
  ExactlyOne (Affirms .less a b) (Affirms .equalEqual a b) (Affirms .greater a b) ∧
  (Affirms .lessEqual a b ↔ Affirms .less a b ∨ Affirms .equalEqual a b) ∧
  (Affirms .greaterEqual a b ↔ Affirms .greater a b ∨ Affirms .equalEqual a b)

theorem agree_iff_not_merged : Agree a b ↔ ¬Merged a b := by
  have heq : a = b → rounded a.toInt = rounded b.toInt := fun h => by rw [h]
  rw [Agree, affirms_less, affirms_equal, affirms_greater, affirms_lessEqual, affirms_greaterEqual,
    merged_iff, ExactlyOne, ne_eq]
  generalize rounded a.toInt = x at heq ⊢
  generalize rounded b.toInt = y at heq ⊢
  generalize (a = b) = same at heq ⊢
  grind

theorem decided_of_verdict (h : verdict? s a b = some answer) : Affirms s a b ∨ Denies s a b := by
  cases answer with
  | true => exact .inl (answers_verdict h)
  | false => exact .inr (answers_verdict h)

/-- The operators that compare. -/
def comparisons : List Symbol := [.less, .lessEqual, .equalEqual, .greater, .greaterEqual]

theorem decided (hs : s ∈ comparisons) (a b : Int64) : Affirms s a b ∨ Denies s a b := by
  simp only [comparisons, List.mem_cons, List.not_mem_nil, or_false] at hs
  rcases hs with rfl | rfl | rfl | rfl | rfl <;> exact decided_of_verdict rfl

/-- Merged words are on both sides of each other, and neither before, nor after, nor equal. -/
theorem Merged.answers (h : Merged a b) :
    Denies .less a b ∧ Denies .equalEqual a b ∧ Denies .greater a b ∧
      Affirms .lessEqual a b ∧ Affirms .greaterEqual a b := by
  obtain ⟨hne, hrounded⟩ := merged_iff.1 h
  have hdenies : ∀ s ∈ comparisons, ¬Affirms s a b → Denies s a b := fun s hs hnot =>
    (decided hs a b).resolve_left hnot
  refine ⟨hdenies _ (by decide) ?_, hdenies _ (by decide) ?_, hdenies _ (by decide) ?_, ?_, ?_⟩
  · exact fun hless => Int.lt_irrefl _ (hrounded ▸ affirms_less.1 hless)
  · exact fun hequal => hne (affirms_equal.1 hequal)
  · exact fun hgreater => Int.lt_irrefl _ (hrounded ▸ affirms_greater.1 hgreater)
  · exact affirms_lessEqual.2 (Int.le_of_eq hrounded)
  · exact affirms_greaterEqual.2 (Int.le_of_eq hrounded.symm)

/-- Of two machine words exactly one of `<`, `==` and `>` is true, in the order of the words, and
`<=` and `>=` are true where one of their two parts is, unless the words are different and are
converted to the same floating-point number. Then none of the three is true, and both `<=` and `>=`
are. `==` is always exact, and up to two to the power of 53 no two words are converted to the same
number. -/
theorem words_compared (a b : Int64) :
    (∀ s ∈ comparisons, Affirms s a b ∨ Denies s a b) ∧
    (Affirms .equalEqual a b ↔ a = b) ∧
    (Agree a b ↔ ¬Merged a b) ∧
    (¬Merged a b → (Affirms .less a b ↔ a < b) ∧ (Affirms .greater a b ↔ b < a)) ∧
    (Merged a b → Denies .less a b ∧ Denies .equalEqual a b ∧ Denies .greater a b ∧
      Affirms .lessEqual a b ∧ Affirms .greaterEqual a b) ∧
    (a.toInt.natAbs ≤ 2 ^ 53 → b.toInt.natAbs ≤ 2 ^ 53 → ¬Merged a b) := by
  refine ⟨fun s hs => decided hs a b, affirms_equal, agree_iff_not_merged, fun h => ⟨?_, ?_⟩,
    Merged.answers, not_merged_of_le⟩
  · exact affirms_less.trans (rounded_lt_iff h)
  · exact affirms_greater.trans (rounded_lt_iff (mt Merged.symm h))

def mergedSource : List UInt8 :=
  ("print 9007199254740992 < 9007199254740993 or 9007199254740992 == 9007199254740993 or " ++
    "9007199254740992 > 9007199254740993;").toUTF8.toList

/-- Two to the power of 53 and the next word: none of `<`, `==` and `>` is true of them. -/
theorem words_not_agreeing :
    ¬Agree 9007199254740992 9007199254740993 ∧
    ((Session.start 0).run 99 mergedSource).map (fun r => r.2.machine.output) = some "false\n" := by
  have hmerged : Merged 9007199254740992 9007199254740993 := by
    refine ⟨by decide, ?_⟩
    decide +kernel
  exact ⟨fun hagree => agree_iff_not_merged.1 hagree hmerged, by decide +kernel⟩

end TreeWalk
