import TreeWalk.Proofs.Settled

/-!
# Sessions with other references

What a unit gives does not depend on which references it gets. `Session.Renumbered f s s'` says that
`s'` is the session `s` with references renamed by `f`, and every unit gives the same in both
(`Session.Renumbered.run`). Such a session arises when references are given out and distances
recorded under them, and nothing else happens (`Session.Touched`): later references are then moved
up.
-/

namespace TreeWalk

namespace Session

/-- `s'` is `s` with references renamed by `f`, which moves all that have not been given out alike.
-/
structure Renumbered (f : Nat → Nat) (s s' : Session) : Prop where
  injective : (Renaming.references f).Injective
  machine : s'.machine = s.machine.rename (.references f) s'.machine.distances
  distances : s.machine.distances.Agree (.references f) s'.machine.distances
  le : s.nextReference ≤ s'.nextReference
  next : ∀ i, f (s.nextReference + i) = s'.nextReference + i

end Session

theorem renameOutcome_references {α : Type} (f : Nat → Nat) (outcome : Except Fault α) :
    renameOutcome (.references f) outcome = outcome := by
  rcases outcome with (⟨cause, line, trace⟩ | ⟨shown, target⟩) | a <;> rfl

/-- Tokens read from another reference on. -/
theorem parseProgram_add (ts : List Token) (n k : Nat) :
    parseProgram ts (n + k) =
      (renameProgram (.references (· + k)) (parseProgram ts n).1, (parseProgram ts n).2 + k) := by
  have hcounts : (Renaming.references (· + k)).Counts := fun r => Nat.add_right_comm r 1 k
  have hts : ts.map (Token.rename (.references (· + k))) = ts := List.map_id ts
  have h := @parseProgram_rename _ hcounts ts (fun _ => rfl) n
  rwa [hts] at h

namespace Session

variable {f : Nat → Nat} {s s' : Session}

theorem Renumbered.give (h : Renumbered f s s') {n n' : Nat} (hn : s.nextReference ≤ n)
    (hn' : n + s'.nextReference = n' + s.nextReference) :
    Renumbered f { s with nextReference := n } { s' with nextReference := n' } where
  injective := h.injective
  machine := h.machine
  distances := h.distances
  le := by
    have hle := h.le
    show n ≤ n'
    omega
  next i := by
    have hi := h.next (n - s.nextReference + i)
    have hleft : s.nextReference + (n - s.nextReference + i) = n + i := by omega
    rw [hleft] at hi
    show f (n + i) = n' + i
    omega

theorem Renumbered.locate (h : Renumbered f s s') {d d' : Distances}
    (hd : d.Agree (.references f) d') :
    Renumbered f { s with machine := { s.machine with distances := d } }
      { s' with machine := { s'.machine with distances := d' } } where
  injective := h.injective
  machine := by
    show { s'.machine with distances := d' } = Machine.rename (.references f) d' s.machine
    rw [h.machine]
    rfl
  distances := hd
  le := h.le
  next := h.next

/-- Reading a unit gives the same diagnostic, or the same program with its references renamed. -/
theorem Renumbered.parse (h : Renumbered f s s') (source : List UInt8) :
    ∃ s₁ s₁', Renumbered f s₁ s₁' ∧
      ((∃ d, s.parse source = (.error d, s₁) ∧ s'.parse source = (.error d, s₁')) ∨
        ∃ program, s.parse source = (.ok program, s₁) ∧
          s'.parse source = (.ok (renameStmts (.references f) program), s₁')) := by
  obtain ⟨k, hk⟩ := Nat.exists_eq_add_of_le h.le
  unfold Session.parse
  cases Lexer.tokens source with
  | error fault => exact ⟨s, s', h, .inl ⟨_, rfl, rfl⟩⟩
  | ok ts =>
    have hadd := parseProgram_add ts s.nextReference k
    rw [← hk] at hadd
    have hle := le_parseProgram ts s.nextReference
    have hsum : (parseProgram ts s.nextReference).2 + s'.nextReference =
        (parseProgram ts s.nextReference).2 + k + s.nextReference := by omega
    have hgive := h.give hle hsum
    cases hp : parseProgram ts s.nextReference with
    | mk outcome n =>
      rw [hp] at hadd hgive
      dsimp only
      rw [hp, hadd]
      cases outcome with
      | error r =>
        refine ⟨_, _, hgive, .inl ⟨_, rfl, ?_⟩⟩
        show (_, _) = (_, _)
        rw [r.rename_references]
      | ok program =>
        -- `f` and the shift differ only where the program has no references
        have hok : (parseProgram ts s.nextReference).1 = .ok program := by rw [hp]
        have hrefs := references_of_parseProgram hok
        have hprogram : renameStmts (.references (· + k)) program =
            renameStmts (.references f) program := by
          have hline : (Renaming.references (· + k)).line = (Renaming.references f).line := rfl
          apply renameStmts_congr hline
          intro r hr
          obtain ⟨i, rfl⟩ := Nat.exists_eq_add_of_le (hrefs.bounds r hr).1
          rw [Renaming.references_reference, Renaming.references_reference, h.next i]
          omega
        refine ⟨_, _, hgive, .inr ⟨program, rfl, ?_⟩⟩
        show (_, _) = (_, _)
        rw [hprogram]

theorem Renumbered.resolve (h : Renumbered f s s') (program : List Stmt) :
    ∃ s₁ s₁' outcome, Renumbered f s₁ s₁' ∧ s.resolve program = (outcome, s₁) ∧
      s'.resolve (renameStmts (.references f) program) = (outcome, s₁') := by
  have halike := alike_resolveProgram h.injective program _ _ h.distances
  unfold Session.resolve
  generalize resolveProgram program s.machine.distances = v at halike
  generalize resolveProgram _ s'.machine.distances = v' at halike
  cases halike with
  | rejected hd => exact ⟨_, _, _, h.locate hd, rfl, rfl⟩
  | passed hd => exact ⟨_, _, _, h.locate hd, rfl, rfl⟩

/-- No unit depends on what its references are. -/
theorem Renumbered.run (h : Renumbered f s s') (limit : Nat) (source : List UInt8) :
    Option.Rel (fun r r' => r.1 = r'.1 ∧ Renumbered f r.2 r'.2) (s.run limit source)
      (s'.run limit source) := by
  obtain ⟨s₁, s₁', h₁, ⟨d, hp, hp'⟩ | ⟨program, hp, hp'⟩⟩ := h.parse source
  · unfold Session.run
    rw [hp, hp']
    exact .some ⟨rfl, h₁⟩
  · obtain ⟨s₂, s₂', outcome, h₂, hr, hr'⟩ := h₁.resolve program
    unfold Session.run
    simp only [hp, hp', hr, hr']
    cases outcome with
    | error d => exact .some ⟨rfl, h₂⟩
    | ok _ =>
      have hi := Machine.interpret_rename h₂.distances limit program
      rw [← h₂.machine] at hi
      simp only [Session.interpret, hi]
      cases hm : s₂.machine.interpret limit program with
      | none => exact .none
      | some r =>
        obtain ⟨outcome, m⟩ := r
        have hdistances : m.distances = s₂.machine.distances :=
          congrArg Registers.distances (Machine.registers_of_interpret hm)
        refine .some ⟨?_, h₂.injective, rfl, ?_, h₂.le, h₂.next⟩
        · exact congrArg (Except.mapError Diagnostic.runtime)
            (renameOutcome_references f outcome).symm
        · show m.distances.Agree _ _
          rw [hdistances]
          exact h₂.distances

/-! ### References that were only given out -/

/-- References were given out and distances recorded under them, and nothing else has changed. -/
structure Touched (s s' : Session) : Prop where
  machine : s'.machine = { s.machine with distances := s'.machine.distances }
  le : s.nextReference ≤ s'.nextReference
  distances : ∀ r, r < s.nextReference →
    s'.machine.distances.get? r = s.machine.distances.get? r

/-- Moves references from the next one of `s` on to the next one of `s'` on. -/
def shift (s s' : Session) (r : Nat) : Nat :=
  if r < s.nextReference then r else r + (s'.nextReference - s.nextReference)

theorem above_shift (s s' : Session) : Above s.nextReference (s.shift s') where
  below r hr := if_pos hr
  above r hr := by
    rw [shift, if_neg (Nat.not_lt_of_le hr)]
    exact Nat.le_trans hr (Nat.le_add_right _ _)

theorem Touched.renumbered (h : Touched s s') (hs : s.Settled) (hs' : s'.Settled) :
    Renumbered (s.shift s') s s' where
  injective r r' hr := by
    simp only [Renaming.references_reference, shift] at hr
    split at hr <;> split at hr <;> omega
  machine := by
    rw [Machine.rename, hs.heap _ (s.above_shift s')]
    exact h.machine
  distances r := by
    rw [Renaming.references_reference, shift]
    split
    · next hr => exact h.distances r hr
    · next hr =>
      have hr : s.nextReference ≤ r := Nat.le_of_not_lt hr
      have hle := h.le
      rw [hs.distances r hr]
      exact hs'.distances _ (by omega)
  le := h.le
  next i := by
    have hle := h.le
    rw [shift, if_neg (by omega)]
    omega

theorem touched_parse (source : List UInt8) (s : Session) : Touched s (s.parse source).2 where
  machine := by rw [machine_parse]
  le := nextReference_parse source s
  distances _ _ := by rw [machine_parse]

theorem touched_resolve {source : List UInt8} {program : List Stmt} {s₁ : Session}
    (h : s.parse source = (.ok program, s₁)) : Touched s (s₁.resolve program).2 := by
  obtain ⟨hmachine, -, hrefs⟩ := parse_ok h
  refine ⟨?_, ?_, ?_⟩
  · rw [resolve_eq, hmachine]
  · rw [resolve_eq]
    exact hrefs.le
  · intro r hr
    have hmem : r ∉ referencesStmts program :=
      fun hm => Nat.not_le_of_lt hr (hrefs.bounds r hm).1
    rw [get?_resolve hmem, hmachine]

end Session

end TreeWalk
