import TreeWalk.Proofs.Joining

/-!
# Scanning line by line

A line end outside of strings cuts a source in two: the first part is scanned as if the source ended
there, and the second as if it started there, only further down (`Lexer.scan_around_newline`). Faults
do not matter, with one exception: a string that is not closed goes on behind the line end.
-/

namespace TreeWalk.Lexer

/-- The token or the fault, `k` lines further down. -/
def moved (k : Nat) : Except LexFault Token → Except LexFault Token
  | .ok t => .ok { t with line := t.line + k }
  | .error f => .error { f with line := f.line + k }

/-- Lines are counted from one, so none of them stands for no line. -/
theorem Takes.result?_lowered {before source taken : List UInt8} {item : Item}
    (h : Takes before source taken item) (k : Nat) :
    (Span.mk taken (item.lowered k)).result? = ((Span.mk taken item).result?).map (moved k) := by
  cases item with
  | skipped => rfl
  | fault f => rfl
  | token t =>
    have hline : t.line ≠ 0 := by
      rw [h.line rfl]
      omega
    have hmoved : t.rename (.lowering k) = { t with line := t.line + k } := by
      simp only [Token.rename, Renaming.lowering, if_neg hline]
    exact congrArg (fun t => some (Except.ok t)) hmoved

theorem Cuts.results_lowered {before source : List UInt8} {spans : List Span}
    (h : Cuts before source spans) (k : Nat) :
    (spans.map (Span.lowered k)).filterMap Span.result? =
      (spans.filterMap Span.result?).map (moved k) := by
  induction h with
  | done => rfl
  | take htakes _ _ ih =>
    rw [List.map_cons, List.filterMap_cons, List.filterMap_cons, ih, Span.lowered,
      htakes.result?_lowered k]
    cases Span.result? _ <;> rfl

/-- If every string in `a` is closed, then `a`, a line end and `b` are scanned as `a` up to its end and
then as `b`, whose tokens and faults are as many lines further down as end before it. -/
theorem scan_around_newline {a b : List UInt8}
    (h : ∀ f, .error f ∈ scan a → f.cause ≠ .unterminated) :
    ∃ items, scan a = items ++ [.ok (Token.endOn (1 + newlines a))] ∧
      (∀ t, .ok t ∈ items → t.isEnd = false) ∧
      scan (a ++ 10 :: b) = items ++ (scan b).map (moved (newlines a + 1)) := by
  obtain ⟨spansA, hcutsA, -⟩ := @cuts_scanFrom _ [] a (Nat.le_refl _)
  obtain ⟨spansB, hcutsB, -⟩ := @cuts_scanFrom _ [] b (Nat.le_refl _)
  have hclosed : ∀ span ∈ spansA, ∀ line, span.item ≠ .fault ⟨.unterminated, line⟩ :=
    fun span hspan line hitem => h _ (hcutsA.error_mem_scan.2 ⟨span, hspan, hitem⟩) rfl
  have hk : newlines ([] ++ a ++ [10]) = newlines [] + (newlines a + 1) := by
    rw [newlines_append, List.nil_append]
    simp [newlines]
  have hcuts := hcutsA.join hclosed (hcutsB.lowered hk)
  have hend : 1 + newlines (a ++ 10 :: b) = 1 + newlines b + (newlines a + 1) := by
    rw [newlines_append, newlines, newlines, newlines, List.countP_cons_of_pos (by rfl)]
    omega
  refine ⟨spansA.filterMap Span.result?, hcutsA.scan_eq, ?_, ?_⟩
  · intro t ht
    obtain ⟨span, hspan, hitem⟩ := List.mem_filterMap.1 ht
    obtain ⟨_, _, htakes⟩ := hcutsA.takes_of_mem hspan
    rw [Span.result?_eq_ok.1 hitem] at htakes
    exact htakes.token.2
  · rw [hcuts.scan_eq, hcutsB.scan_eq, List.filterMap_append, List.filterMap_cons,
      hcutsB.results_lowered, List.map_append, List.append_assoc, hend]
    rfl

/-- A byte that starts no token, a string over two lines and a comment: `@"⏎"//@`. -/
def brokenSource : List UInt8 :=
  [64, 34, 10, 34, 47, 47, 64]

/-- A name and a string that is not closed: `a"`. -/
def openSource : List UInt8 :=
  [97, 34]

theorem scan_around_newline_broken :
    (∀ f, .error f ∈ scan brokenSource → f.cause ≠ .unterminated) ∧
      scan (brokenSource ++ 10 :: openSource) =
        [.error ⟨.unexpected 64, 1⟩, .ok ⟨.string "\n", "\"\n\"", 2⟩, .ok ⟨.identifier, "a", 3⟩,
          .error ⟨.unterminated, 3⟩, .ok (Token.endOn 3)] := by
  have hscan : scan brokenSource =
      [.error ⟨.unexpected 64, 1⟩, .ok ⟨.string "\n", "\"\n\"", 2⟩] ++ [.ok (Token.endOn 2)] := rfl
  have h : ∀ f, .error f ∈ scan brokenSource → f.cause ≠ .unterminated := by
    intro f hf
    rw [hscan] at hf
    simp only [List.cons_append, List.nil_append, List.mem_cons, Except.error.injEq, reduceCtorEq,
      List.not_mem_nil, or_false] at hf
    rw [hf]
    exact nofun
  obtain ⟨items, hitems, -, hjoin⟩ := scan_around_newline (b := openSource) h
  rw [hscan] at hitems
  refine ⟨h, ?_⟩
  rw [hjoin, ← (List.append_inj' hitems rfl).1]
  rfl

end TreeWalk.Lexer
