import TreeWalk.Proofs.Consecutive

/-!
# Every declaration is read afresh

Whatever a production changes about a cursor but its place, its references and its noted faults, it
restores, and noted faults are reported with the item in which they were noted. So a reader that has
come to some token goes on as if reading started there, whatever was wrong with the items before
(`next_item_afresh`). In particular no loop is left open by a body that was given up, so a `break`
behind it is still outside of all loops.
-/

namespace TreeWalk

open Production

variable {c c' : Cursor} {item : Except Rejection Stmt} {loops : Nat}

/-! ### Between declarations -/

/-- An item leaves no fault behind and no loop open. -/
theorem Cursor.Clean.next? (hc : c.Clean loops) (h : c.next? = some (item, c')) : c'.Clean loops := by
  have hsteady := (allSteady c.fuel).declaration c
  obtain ⟨-, ⟨s, c₁, hdone, rfl, -⟩ | ⟨fault, c₁, r, hfailed, rfl, -, -⟩⟩ := Cursor.next?_cases h
  · rw [hdone] at hsteady
    exact ⟨rfl, hsteady.loops.trans hc.2⟩
  · rw [hfailed] at hsteady
    exact ⟨rfl, hsteady.loops.trans hc.2⟩

theorem Cursor.Clean.items (hc : c.Clean loops) (count : Nat) : (c.items count).2.Clean loops := by
  induction count generalizing c with
  | zero => exact hc
  | succ count ih =>
    rw [Cursor.items]
    cases hnext : c.next? with
    | none => exact hc
    | some next => exact ih (hc.next? hnext)

variable {tokens : List Token} {i : Nat}

theorem Cursor.StandsAt.items (h : c.StandsAt tokens i) (count : Nat) :
    ∃ j, (c.items count).2.StandsAt tokens j := by
  induction count generalizing c i with
  | zero => exact ⟨i, h⟩
  | succ count ih =>
    rw [Cursor.items]
    cases hnext : c.next? with
    | none => exact ⟨i, h⟩
    | some next =>
      obtain ⟨j, -, hj⟩ := h.next? hnext
      exact ih hj

/-- A cursor between declarations is one at the start of the tokens from its place on. -/
theorem Cursor.StandsAt.start_drop (h : c.StandsAt tokens i) (hc : c.Clean 0)
    (hend : ∃ t ∈ tokens, t.isEnd) (n : Nat) :
    Cursor.start (tokens.drop i) n = c.to c.rest n := by
  obtain ⟨eof, hfind⟩ := Option.isSome_iff_exists.1 (List.find?_isSome.2 hend)
  obtain ⟨heof, ts, more, rfl, hothers⟩ := List.find?_eq_some_iff_append.1 hfind
  have hts : ∀ t ∈ ts, t.isEnd = false := fun t ht => by simpa using hothers t ht
  have hidx : (ts ++ eof :: more).findIdx Token.isEnd = ts.length := by
    rw [List.findIdx_append, List.findIdx_eq_length.2 hts, if_neg (Nat.lt_irrefl _),
      List.findIdx_cons, heof, cond_true, Nat.zero_add]
  have hle : i ≤ ts.length := hidx ▸ h.le
  have hrest : c.rest = ts.drop i := by
    rw [h.rest, hidx, List.take_left]
  have hline : c.endLine = eof.line := h.endLine eof (by rw [hidx]; simp)
  have hterminated : Terminated (ts.drop i) eof :=
    ⟨heof, fun t ht => hts t (List.mem_of_mem_drop ht)⟩
  rw [List.drop_append_of_le_length hle, Cursor.start_append heof, hterminated.start_eq, hrest,
    ← hline]
  obtain ⟨rest, endLine, loops, faults, nextReference⟩ := c
  obtain ⟨rfl, rfl⟩ := hc
  rfl

/-- Between two declarations no loop is open and no fault is pending, whether what came before was read
or given up, and the items still to come are those that are read from the place on by a reader that
starts there. Every production, whether it succeeds or fails, leaves as many loops open as it was given
(`Cursor.Follows.loops`). -/
theorem next_item_afresh {tokens : List Token} (hend : ∃ t ∈ tokens, t.isEnd) (n count : Nat) :
    (((Cursor.start tokens n).items count).2.loops = 0 ∧
      ((Cursor.start tokens n).items count).2.faults = [] ∧
      ∃ i, ((Cursor.start tokens n).items count).2.StandsAt tokens i ∧ ∀ n' more,
        (((Cursor.start tokens n).items count).2.items more).1.map eraseItem =
          ((Cursor.start (tokens.drop i) n').items more).1.map eraseItem) ∧
    (∀ fuel, AllSteady fuel) ∧ (∀ allowed, Steady (parameters allowed)) ∧
    ∀ outside what node keyword, Steady (jumpStatement outside what node keyword) := by
  have hclean := (clean_start tokens n).items count
  obtain ⟨i, hi⟩ := (Cursor.standsAt_start tokens n).items count
  refine ⟨⟨hclean.2, hclean.1, i, hi, ?_⟩, allSteady, fun allowed => (composed_parameters allowed).steady,
    fun outside what node keyword => (built_jumpStatement outside what node keyword []).steady⟩
  intro n' more
  rw [hi.start_drop hclean hend]
  exact Cursor.items_erase _ _ n' more

/-- The tokens of `while (true) break 1; break;`. -/
def abandonedLoop : List Token :=
  [⟨.keyword .while_, "while", 1⟩, ⟨.symbol .leftParen, "(", 1⟩, ⟨.keyword .true_, "true", 1⟩,
    ⟨.symbol .rightParen, ")", 1⟩, ⟨.keyword .break_, "break", 1⟩, ⟨.number 1, "1", 1⟩,
    ⟨.symbol .semicolon, ";", 1⟩, ⟨.keyword .break_, "break", 1⟩, ⟨.symbol .semicolon, ";", 1⟩,
    Token.endOn 1]

/-- The body of a loop is given up at its second token, and the `break` behind it is in no loop. -/
theorem next_item_afresh_behind_loop :
    (∃ t ∈ abandonedLoop, t.isEnd) ∧
    ((Cursor.start abandonedLoop 0).items 1).2.loops = 0 ∧
    (parseItems abandonedLoop 0).1 =
      [.error ⟨⟨.expected .endOfBreak, ⟨1, some "1"⟩⟩, []⟩,
        .error ⟨⟨.breakOutsideLoop, ⟨1, some "break"⟩⟩, []⟩] := by
  have hend : ∃ t ∈ abandonedLoop, t.isEnd := ⟨Token.endOn 1, by simp [abandonedLoop], rfl⟩
  exact ⟨hend, (next_item_afresh hend 0 1).1.1, rfl⟩

end TreeWalk
