import TreeWalk.Proofs.Joining
import TreeWalk.Proofs.Lasting
import TreeWalk.Proofs.Atomicity

/-!
# A session and one unit

Two units that are accepted give together what they give as one unit with a line end between them
(`two_units_eq_one`). Two programs are checked and run one after the other either way
(`resolveProgram_append`, `Machine.interpret_append`). But in one unit all distances are recorded
before anything runs, references may have other numbers, and what comes second stands on other
lines. So the first program is run with the distances of both (`Session.Touched.interpret`), the
references of the two readings are paired up in order (`pairUp`), and lines are blotted out
(`Renaming.unplaced`), which no run looks at.
-/

namespace TreeWalk

/-! ### One program after the other -/

theorem resolveStmts_top {ss : List Stmt} {c : Context} {d d' : Distances}
    (h : resolveStmts ss .top d = .passed c d') : c = .top := by
  induction ss generalizing d with
  | nil =>
    rw [resolveStmts] at h
    exact (Walk.pure_passed h).1.symm
  | cons s ss ih =>
    rw [resolveStmts] at h
    obtain ⟨c₁, d₁, hs, hss⟩ := Walk.bind_passed h
    obtain rfl : c₁ = .top := (s.after_of_resolve hs).trans (s.after_of_scopes rfl)
    exact ih hss

theorem Walk.bind_of_passed {α β : Type} {w : Walk α} {f : α → Walk β} {a : α} {d d' : Distances}
    (h : w d = .passed a d') : (w >>= f) d = f a d' := by
  show Walk.bind w f d = f a d'
  rw [Walk.bind, h]

theorem resolveStmts_append {ss : List Stmt} {c c' : Context} {d d' : Distances}
    (h : resolveStmts ss c d = .passed c' d') (ss' : List Stmt) :
    resolveStmts (ss ++ ss') c d = resolveStmts ss' c' d' := by
  induction ss generalizing c d with
  | nil =>
    rw [resolveStmts] at h
    obtain ⟨rfl, rfl⟩ := Walk.pure_passed h
    rfl
  | cons s ss ih =>
    rw [resolveStmts] at h
    obtain ⟨c₁, d₁, hs, hss⟩ := Walk.bind_passed h
    rw [List.cons_append, resolveStmts, Walk.bind_of_passed hs]
    exact ih hss

/-- At the top nothing is passed on from one statement to the next but distances. -/
theorem resolveProgram_append {p p' : List Stmt} {d d₁ d₂ : Distances}
    (h : resolveProgram p d = .passed () d₁) (h' : resolveProgram p' d₁ = .passed () d₂) :
    resolveProgram (p ++ p') d = .passed () d₂ := by
  obtain ⟨c, d, hp, hpure⟩ := Walk.bind_passed h
  obtain ⟨-, rfl⟩ := Walk.pure_passed hpure
  obtain rfl := resolveStmts_top hp
  obtain ⟨c', d', hp', hpure'⟩ := Walk.bind_passed h'
  obtain ⟨-, rfl⟩ := Walk.pure_passed hpure'
  have hboth := (resolveStmts_append hp p').trans hp'
  exact Walk.bind_of_passed hboth

theorem Machine.interpret_append (limit : Nat) (p p' : List Stmt) (m : Machine) :
    m.interpret limit (p ++ p') = (m.interpret limit p).bind fun r =>
      match r.1 with
      | .error f => some (.error f, r.2)
      | .ok values => (r.2.interpret limit p').map fun r' => (r'.1.map (values ++ ·), r'.2) := by
  induction p generalizing m with
  | nil =>
    have hmap (r : Except Fault (List (Option Value)) × Machine) :
        (r.1.map ([] ++ ·), r.2) = r := by
      obtain ⟨f | values, m'⟩ := r <;> rfl
    simp only [List.nil_append, interpret, Option.bind_some] at hmap ⊢
    simp only [hmap, Option.map_id']
  | cons x p ih =>
    rw [List.cons_append, interpret, interpret]
    cases m.interpretOne limit x with
    | none => rfl
    | some r =>
      obtain ⟨f | v, m₁⟩ := r
      · rfl
      · dsimp only
        rw [ih]
        cases m₁.interpret limit p with
        | none => rfl
        | some r =>
          obtain ⟨f | values, m₂⟩ := r
          · rfl
          · dsimp only [Option.bind_some, Except.map]
            cases m₂.interpret limit p' with
            | none => rfl
            | some r => obtain ⟨f | values', m₃⟩ := r <;> rfl

theorem renameStmts_append (ρ : Renaming) (ss ss' : List Stmt) :
    renameStmts ρ (ss ++ ss') = renameStmts ρ ss ++ renameStmts ρ ss' := by
  induction ss with
  | nil => rfl
  | cons s ss ih => simp only [List.cons_append, renameStmts, ih]

theorem referencesStmts_append (ss ss' : List Stmt) :
    referencesStmts (ss ++ ss') = referencesStmts ss ++ referencesStmts ss' := by
  induction ss with
  | nil => rfl
  | cons s ss ih => simp only [List.cons_append, referencesStmts, ih, List.append_assoc]

/-! ### References in the same order -/

/-- Takes the references `refs` to `refs'`, in order, and others from `n` on out of the way of
references below `next`. -/
def pairUp (n next : Nat) (refs refs' : List Nat) (r : Nat) : Nat :=
  if r < n then r else refs'[refs.idxOf r]?.getD (next + r)

section

variable {n k next r : Nat} {refs refs' : List Nat}

theorem pairUp_cases (next : Nat) (hlength : refs.length = refs'.length) (hr : n ≤ r) :
    (∃ i : Nat, refs[i]? = some r ∧ refs'[i]? = some (pairUp n next refs refs' r)) ∨
      r ∉ refs ∧ pairUp n next refs refs' r = next + r := by
  rw [pairUp, if_neg (Nat.not_lt_of_le hr)]
  by_cases hmem : r ∈ refs
  · have hi : refs.idxOf r < refs.length := List.idxOf_lt_length_of_mem hmem
    have hi' : refs.idxOf r < refs'.length := hlength ▸ hi
    refine .inl ⟨refs.idxOf r, ?_, ?_⟩
    · rw [List.getElem?_eq_getElem hi, List.getElem_idxOf]
    · rw [List.getElem?_eq_getElem hi']
      rfl
  · refine .inr ⟨hmem, ?_⟩
    have hi : refs'.length ≤ refs.idxOf r := by
      apply Nat.le_of_eq
      rw [← hlength, List.idxOf_eq_length hmem]
    rw [List.getElem?_eq_none hi]
    rfl

theorem above_pairUp (hlength : refs.length = refs'.length) (h' : Between n refs' next) :
    Above n (pairUp n next refs refs') where
  below r hr := if_pos hr
  above r hr := by
    rcases pairUp_cases next hlength hr with ⟨i, -, hi⟩ | ⟨-, heq⟩
    · exact (h'.bounds _ (List.mem_of_getElem? hi)).1
    · rw [heq]
      omega

theorem map_pairUp (hlength : refs.length = refs'.length) (h : Between n refs k) :
    refs.map (pairUp n next refs refs') = refs' := by
  apply List.ext_getElem?
  intro i
  rw [List.getElem?_map]
  cases hi : refs[i]? with
  | none =>
    rw [List.getElem?_eq_none_iff, hlength] at hi
    exact (List.getElem?_eq_none hi).symm
  | some r =>
    have hmem := List.mem_of_getElem? hi
    rcases pairUp_cases next hlength (h.bounds r hmem).1 with ⟨j, hj, hj'⟩ | ⟨hnot, -⟩
    · have hlt := (List.getElem?_eq_some_iff.1 hi).1
      obtain rfl : i = j := (List.getElem?_inj hlt h.nodup).1 (hi.trans hj.symm)
      exact hj'.symm
    · exact absurd hmem hnot

theorem injective_pairUp (hlength : refs.length = refs'.length) (h' : Between n refs' next) :
    (Renaming.references (pairUp n next refs refs')).Injective := by
  have habove := above_pairUp hlength h'
  intro r r' heq
  simp only [Renaming.references_reference] at heq
  by_cases hr : r < n
  · by_cases hr' : r' < n
    · rwa [habove.below r hr, habove.below r' hr'] at heq
    · have hle := habove.above r' (Nat.le_of_not_lt hr')
      rw [← heq, habove.below r hr] at hle
      omega
  · by_cases hr' : r' < n
    · have hle := habove.above r (Nat.le_of_not_lt hr)
      rw [heq, habove.below r' hr'] at hle
      omega
    · rcases pairUp_cases next hlength (Nat.le_of_not_lt hr) with ⟨i, hi, hi'⟩ | ⟨-, hfar⟩ <;>
      rcases pairUp_cases next hlength (Nat.le_of_not_lt hr') with ⟨j, hj, hj'⟩ | ⟨-, hfar'⟩
      · rw [heq] at hi'
        have hlt := (List.getElem?_eq_some_iff.1 hi').1
        obtain rfl : i = j := (List.getElem?_inj hlt h'.nodup).1 (hi'.trans hj'.symm)
        exact Option.some.inj (hi.symm.trans hj)
      · have hlt := (h'.bounds _ (List.mem_of_getElem? hi')).2
        omega
      · have hlt := (h'.bounds _ (List.mem_of_getElem? hj')).2
        omega
      · omega

end

/-- Trees that are the same up to references are so by renaming them in order. -/
theorem eq_rename_pairUp {p q : List Stmt} {n k next : Nat} (herase : eraseStmts q = eraseStmts p)
    (hp : Between n (referencesStmts p) k) :
    (referencesStmts p).length = (referencesStmts q).length ∧
      q = renameStmts (.references (pairUp n next (referencesStmts p) (referencesStmts q))) p := by
  have hreferences (ss : List Stmt) :
      (referencesStmts (eraseStmts ss)).length = (referencesStmts ss).length := by
    rw [← renameStmts_erasing, referencesStmts_rename, List.length_map]
  have hlength : (referencesStmts p).length = (referencesStmts q).length := by
    rw [← hreferences p, ← hreferences q, herase]
  refine ⟨hlength, eq_of_eraseStmts ?_ ?_⟩
  · rw [herase, ← renameStmts_erasing, ← renameStmts_erasing, renameStmts_renameStmts]
    rfl
  · rw [referencesStmts_rename, Renaming.references_reference, map_pairUp hlength hp]

/-! ### Lines blotted out -/

theorem Function.rename_rename (ρ σ : Renaming) (f : Function) :
    (f.rename ρ).rename σ = f.rename (ρ.trans σ) := by
  simp only [Function.rename, FunctionDecl.rename_rename]

theorem Class.rename_rename (ρ σ : Renaming) (c : Class) :
    (c.rename ρ).rename σ = c.rename (ρ.trans σ) := by
  simp only [Class.rename, Table.mapEntries, List.map_map, Function.comp_def,
    Function.rename_rename]

theorem Heap.rename_rename (ρ σ : Renaming) (h : Heap) :
    (h.rename ρ).rename σ = h.rename (ρ.trans σ) := by
  simp only [Heap.rename, Array.map_map, Function.comp_def, Function.rename_rename,
    Class.rename_rename]

section

variable {f : Nat → Nat} {p q : List Stmt}

/-- Programs that are the same up to lines and to renaming by `f` are accepted both, with the same
distances. -/
theorem resolveProgram_unplaced (hf : (Renaming.references f).Injective)
    (hq : renameStmts (.unplaced id) q = renameStmts (.unplaced f) p) {d d₁ : Distances}
    (hd : d.Agree (.references f) d) (h : resolveProgram p d = .passed () d₁) :
    ∃ d₂, resolveProgram q d = .passed () d₂ ∧ d₁.Agree (.references f) d₂ := by
  have hid : (Renaming.unplaced id).Injective := fun _ _ h => h
  have hinj : (Renaming.unplaced f).Injective := hf
  have hp := alike_resolveProgram hinj p d d hd
  have hq' := alike_resolveProgram hid q d d fun _ => rfl
  rw [h] at hp
  rw [hq] at hq'
  generalize resolveProgram (renameStmts (.unplaced f) p) d = v at hp hq'
  cases hp with
  | @passed _ _ d₃ hagree =>
    generalize resolveProgram q d = w at hq'
    cases hq' with
    | @passed _ d₂ _ hagree' =>
      refine ⟨d₂, rfl, ?_⟩
      intro r
      have hr : d₃.get? (f r) = d₂.get? (f r) := hagree' (f r)
      rw [Renaming.references_reference, ← hr]
      exact hagree r

/-- Programs that are the same up to lines and to renaming by `f` do the same up to that. -/
theorem Machine.interpret_unplaced {m : Machine} {d : Distances}
    (hq : renameStmts (.unplaced id) q = renameStmts (.unplaced f) p)
    (hheap : m.heap.rename (.references f) = m.heap)
    (hd : m.distances.Agree (.references f) d) (limit : Nat) :
    (({ m with distances := d } : Machine).interpret limit q).map (fun r =>
        (renameOutcome (.unplaced id) r.1, r.2.rename (.unplaced id) d)) =
      (m.interpret limit p).map fun r =>
        (renameOutcome (.unplaced f) r.1, r.2.rename (.unplaced f) d) := by
  have hagree : m.distances.Agree (.unplaced f) d := hd
  have hagree' : ({ m with distances := d } : Machine).distances.Agree (.unplaced id) d :=
    fun _ => rfl
  rw [← Machine.interpret_rename hagree, ← Machine.interpret_rename hagree', hq]
  have hrename : m.heap.rename (.unplaced f) = m.heap.rename (.unplaced id) := by
    have htrans := Heap.rename_rename (.references f) (.unplaced id) m.heap
    rw [hheap] at htrans
    exact htrans.symm
  simp only [Machine.rename, hrename]

end

/-! ### Units that are accepted -/

namespace Session

variable {s s₁ s₂ : Session} {a b source : List UInt8} {p p' program : List Stmt}

theorem run_of_accept? (h : s.accept? source = some (program, s₁)) (limit : Nat) :
    s.run limit source = s₁.interpret limit program := by
  obtain ⟨s₀, hp, hr⟩ := accept?_eq h
  simp only [Session.run, hp, hr]

theorem touched_accept? (h : s.accept? source = some (program, s₁)) : Touched s s₁ := by
  obtain ⟨s₀, hp, hr⟩ := accept?_eq h
  have htouched := touched_resolve hp
  rwa [hr] at htouched

theorem references_accept? (h : s.accept? source = some (program, s₁)) :
    Between s.nextReference (referencesStmts program) s₁.nextReference := by
  obtain ⟨s₀, hp, hr⟩ := accept?_eq h
  have hnext := nextReference_resolve program s₀
  rw [hr] at hnext
  rw [hnext]
  exact (parse_ok hp).2.2

theorem resolve_accept? (h : s.accept? source = some (program, s₁)) :
    resolveProgram program s.machine.distances = .passed () s₁.machine.distances := by
  obtain ⟨s₀, hp, hr⟩ := accept?_eq h
  rw [← (parse_ok hp).1]
  unfold Session.resolve at hr
  split at hr
  · cases hr
  · next heq =>
    cases hr
    exact heq

theorem Settled.accept? (hs : s.Settled) (h : s.accept? source = some (program, s₁)) :
    s₁.Settled := by
  obtain ⟨s₀, hp, hr⟩ := accept?_eq h
  have hparse := hs.parse source
  rw [hp] at hparse
  have hresolve := hparse.resolve fun r hr => ((parse_ok hp).2.2.bounds r hr).2
  rwa [hr] at hresolve

/-- A program is read from the next reference on and checked with the distances, whatever else the
machine holds. -/
theorem accept?_eq_some : s.accept? source = some (program, s₁) ↔
    (∃ ts, Lexer.tokens source = .ok ts ∧
      parseProgram ts s.nextReference = (.ok program, s₁.nextReference)) ∧
    resolveProgram program s.machine.distances = .passed () s₁.machine.distances ∧
    s₁.machine = { s.machine with distances := s₁.machine.distances } := by
  constructor
  · intro h
    refine ⟨?_, resolve_accept? h, (touched_accept? h).machine⟩
    obtain ⟨s₀, hp, hr⟩ := accept?_eq h
    have hnext := nextReference_resolve program s₀
    rw [hr] at hnext
    unfold Session.parse at hp
    split at hp
    · cases hp
    · next ts hts =>
      split at hp
      · cases hp
      · next heq =>
        cases hp
        exact ⟨ts, hts, heq.trans (congrArg _ hnext.symm)⟩
  · rintro ⟨⟨ts, hts, hp⟩, hr, hm⟩
    simp only [Session.accept?, Session.parse, hts, hp, Session.resolve, hr]
    rw [← hm]

theorem accept?_congr (h : s.accept? source = some (program, s₁)) (s' : Session)
    (hn : s'.nextReference = s.nextReference)
    (hd : s'.machine.distances = s.machine.distances) :
    s'.accept? source = some (program,
      ⟨{ s'.machine with distances := s₁.machine.distances }, s₁.nextReference⟩) := by
  obtain ⟨⟨ts, hts, hp⟩, hr, -⟩ := accept?_eq_some.1 h
  rw [← hn] at hp
  rw [← hd] at hr
  exact accept?_eq_some.2 ⟨⟨ts, hts, hp⟩, hr, rfl⟩

/-- Whether a unit is accepted does not depend on the session. -/
theorem Renumbered.accept? {f : Nat → Nat} {s' : Session} (h : Renumbered f s s')
    (haccept : s.accept? source = some (program, s₁)) :
    ∃ s₁', s'.accept? source = some (renameStmts (.references f) program, s₁') := by
  obtain ⟨s₀, hp, hr⟩ := accept?_eq haccept
  obtain ⟨t₀, t₀', h₀, ⟨d, hp', -⟩ | ⟨program', hp', hparse⟩⟩ := h.parse source
  · rw [hp] at hp'
    cases hp'
  · rw [hp] at hp'
    cases hp'
    obtain ⟨t₁, t₁', outcome, -, hr', hresolve⟩ := h₀.resolve program
    rw [hr] at hr'
    cases hr'
    exact ⟨t₁', by simp only [Session.accept?, hparse, hresolve]⟩

/-- Two units that are accepted one after the other are accepted as one, and give the same programs
up to the numbers of references and the lines of the second one. -/
theorem accept?_join (hs : s.Settled) (ha : s.accept? a = some (p, s₁))
    (hb : s₁.accept? b = some (p', s₂)) :
    ∃ f q t, s.accept? (a ++ 10 :: b) = some (renameStmts (.references f) p ++ q, t) ∧
      renameStmts (.unplaced id) q = renameStmts (.unplaced f) p' ∧
      s.machine.heap.rename (.references f) = s.machine.heap ∧
      s₂.machine.distances.Agree (.references f) t.machine.distances := by
  obtain ⟨⟨ta, hta, hpa⟩, hra, hma⟩ := accept?_eq_some.1 ha
  obtain ⟨⟨tb, htb, hpb⟩, hrb, -⟩ := accept?_eq_some.1 hb
  have hp : (parseProgram ta s.nextReference).1 = .ok p := by rw [hpa]
  have hp' : (parseProgram tb s₁.nextReference).1 = .ok p' := by rw [hpb]
  obtain ⟨ts, q, hts, hq, herase⟩ := parseProgram_join hta htb hp hp' s.nextReference
  generalize Lexer.newlines a + 1 = k at herase
  -- the references of the programs together, and those that the joined unit gets
  have hrefs : Between s.nextReference (referencesStmts (p ++ renameStmts (.lowering k) p'))
      s₂.nextReference := by
    have hid : (referencesStmts p').map (Renaming.lowering k).reference = referencesStmts p' :=
      List.map_id _
    rw [referencesStmts_append, referencesStmts_rename, hid]
    exact (references_accept? ha).append (references_accept? hb)
  have hrefs' := references_of_parseProgram hq
  obtain ⟨hlength, hrename⟩ :=
    @eq_rename_pairUp _ _ _ _ (parseProgram ts s.nextReference).2 herase hrefs
  have habove := above_pairUp hlength hrefs'
  have hinjective := injective_pairUp hlength hrefs'
  generalize pairUp _ _ _ _ = f at hrename habove hinjective
  rw [renameStmts_append, renameStmts_renameStmts] at hrename
  have hlines : renameStmts (.unplaced id) q = renameStmts (.unplaced f) (p ++ p') := by
    rw [hrename, renameStmts_append, renameStmts_append, renameStmts_renameStmts,
      renameStmts_renameStmts]
    rfl
  obtain ⟨d, hresolve, hagree⟩ := resolveProgram_unplaced hinjective hlines
    (hs.distances.agree habove) (resolveProgram_append hra hrb)
  refine ⟨f, renameStmts ((Renaming.lowering k).trans (.references f)) p',
    ⟨{ s.machine with distances := d }, (parseProgram ts s.nextReference).2⟩, ?_, ?_,
    hs.heap f habove, hagree⟩
  · rw [← hrename]
    refine accept?_eq_some.2 ⟨⟨ts, hts, ?_⟩, hresolve, rfl⟩
    rw [← hq]
  · rw [renameStmts_renameStmts]
    rfl

/-! ### Running both -/

/-- Distances of references that neither the machine nor the program has do not matter. -/
theorem Touched.interpret {s' : Session} (h : Touched s s') (hs : s.Settled) (hs' : s'.Settled)
    (hprogram : ∀ r ∈ referencesStmts program, r < s.nextReference) (limit : Nat) :
    s'.machine.interpret limit program = (s.machine.interpret limit program).map fun r =>
      (r.1, { r.2 with distances := s'.machine.distances }) := by
  have hrenumbered := h.renumbered hs hs'
  have habove := s.above_shift s'
  have hrun := Machine.interpret_rename hrenumbered.distances limit program
  rw [← hrenumbered.machine, renameStmts_settled hprogram habove] at hrun
  rw [hrun]
  cases hi : s.machine.interpret limit program with
  | none => rfl
  | some r =>
    obtain ⟨outcome, m⟩ := r
    have hheap := Machine.settled_interpret hs.heap hs.distances hprogram hi
    rw [Option.map_some, Option.map_some, renameOutcome_references, Machine.rename,
      hheap _ habove]

end Session

/-- The fault without its line. -/
def Fault.unplaced : Fault → Fault
  | .runtime cause _ trace => .runtime cause 0 trace
  | .conversion shown target => .conversion shown target

/-- The result of a unit, and that of one in which another one with the values `earlier` comes
first: the same values after those, or the same fault up to its line. -/
inductive Continues (earlier : List (Option (Value × String))) :
    (result result' : Except Diagnostic (List (Option (Value × String)))) → Prop
  | values {later : List (Option (Value × String))} :
      Continues earlier (.ok later) (.ok (earlier ++ later))
  | fault {f f' : Fault} (h : f'.unplaced = f.unplaced) :
      Continues earlier (.error (.runtime f)) (.error (.runtime f'))

theorem Fault.rename_unplaced (f : Nat → Nat) (g : Fault) :
    g.rename (.unplaced f) = g.unplaced := by
  cases g <;> rfl

theorem Continues.eq_fault {earlier : List (Option (Value × String))} {cause : RunCause}
    {line : Nat} {trace : List String} {result : Except Diagnostic (List (Option Value))}
    {s : Session}
    (h : Continues earlier (.error (.runtime (.runtime cause line trace))) (result.map s.shown)) :
    ∃ line', result = .error (.runtime (.runtime cause line' trace)) := by
  rcases result with d | values
  · obtain ⟨f', rfl, hf'⟩ : ∃ f', d = .runtime f' ∧
        f'.unplaced = Fault.unplaced (.runtime cause line trace) := by
      cases h with
      | fault h => exact ⟨_, rfl, h⟩
    cases f' with
    | runtime cause' line' trace' =>
      cases hf'
      exact ⟨line', rfl⟩
    | conversion => cases hf'
  · cases h

namespace Session

theorem continues_of_unplaced {f : Nat → Nat} {earlier : List (Option Value)}
    {o o' : Except Fault (List (Option Value))} {s s₁ s' : Session}
    (houtcome : renameOutcome (.unplaced id) o' =
      renameOutcome (.unplaced f) (o.map (earlier ++ ·)))
    (htext : s'.machine.heap.text = s₁.machine.heap.text)
    (hearlier : s₁.shown earlier = s.shown earlier) :
    Continues (s.shown earlier) ((o.mapError Diagnostic.runtime).map s₁.shown)
      ((o'.mapError Diagnostic.runtime).map s'.shown) := by
  have hshown : s'.shown = s₁.shown := by
    funext values
    rw [shown, shown, htext]
  cases o with
  | error g =>
    cases o' with
    | error g' =>
      refine .fault ?_
      have hfault := Except.error.inj houtcome
      rwa [Fault.rename_unplaced, Fault.rename_unplaced] at hfault
    | ok values => cases houtcome
  | ok later =>
    cases o' with
    | error g' => cases houtcome
    | ok values =>
      obtain rfl : values = earlier ++ later := Except.ok.inj houtcome
      have happend : s'.shown (earlier ++ later) = s.shown earlier ++ s₁.shown later := by
        rw [hshown, ← hearlier, shown, List.map_append]
        rfl
      show Continues _ (.ok (s₁.shown later)) (.ok (s'.shown (earlier ++ later)))
      rw [happend]
      exact .values

section

variable {f : Nat → Nat} {limit : Nat} {p p' q : List Stmt} {s s₁ s₂ t : Session}
  {a b c : List UInt8} (hs : s.Settled) (ha : s.accept? a = some (p, s₁))
  (hb : s₁.accept? b = some (p', s₂))
  (hc : s.accept? c = some (renameStmts (.references f) p ++ q, t))
  (hheap : s.machine.heap.rename (.references f) = s.machine.heap)
  (hagree : s₂.machine.distances.Agree (.references f) t.machine.distances)

include hs ha hb in
theorem interpret_wide : s₂.machine.interpret limit p = (s₁.machine.interpret limit p).map fun r =>
    (r.1, { r.2 with distances := s₂.machine.distances }) := by
  have hs₁ := hs.accept? ha
  exact (touched_accept? hb).interpret hs₁ (hs₁.accept? hb)
    (fun r hr => ((references_accept? ha).bounds r hr).2) limit

include ha hb in
theorem machine_of_accept?_twice :
    s₂.machine = { s.machine with distances := s₂.machine.distances } := by
  rw [(touched_accept? hb).machine, (touched_accept? ha).machine]

include hs ha hb hc hheap hagree

/-- The first program does in the joined unit what it does on its own, in all detail. -/
theorem interpret_first : t.machine.interpret limit (renameStmts (.references f) p) =
    (s₁.machine.interpret limit p).map fun r =>
      (r.1, r.2.rename (.references f) t.machine.distances) := by
  have hmachine : s₂.machine.rename (.references f) t.machine.distances = t.machine := by
    rw [machine_of_accept?_twice ha hb, (touched_accept? hc).machine, Machine.rename, hheap]
  have hrun := Machine.interpret_rename hagree limit p
  rw [hmachine, interpret_wide hs ha hb, Option.map_map] at hrun
  rw [hrun]
  simp only [Function.comp_def, renameOutcome_references]
  rfl

/-- Both programs do in the joined unit what they do one after the other, up to references and
lines. -/
theorem interpret_both (hlines : renameStmts (.unplaced id) q = renameStmts (.unplaced f) p')
    {values : List (Option Value)} {m : Machine}
    (hfirst : s₁.machine.interpret limit p = some (.ok values, m)) :
    (t.machine.interpret limit (renameStmts (.references f) p ++ q)).map (fun r =>
        (renameOutcome (.unplaced id) r.1, r.2.rename (.unplaced id) t.machine.distances)) =
      (({ m with distances := s₂.machine.distances } : Machine).interpret limit p').map fun r =>
        (renameOutcome (.unplaced f) (r.1.map (values ++ ·)),
          r.2.rename (.unplaced f) t.machine.distances) := by
  have hall : renameStmts (.unplaced id) (renameStmts (.references f) p ++ q) =
      renameStmts (.unplaced f) (p ++ p') := by
    rw [renameStmts_append, renameStmts_append, renameStmts_renameStmts, hlines]
    rfl
  have hheap₂ : s₂.machine.heap.rename (.references f) = s₂.machine.heap := by
    rw [machine_of_accept?_twice ha hb]
    exact hheap
  have hmachine : { s₂.machine with distances := t.machine.distances } = t.machine := by
    rw [machine_of_accept?_twice ha hb, (touched_accept? hc).machine]
  have hrun := Machine.interpret_unplaced hall hheap₂ hagree limit
  rw [hmachine, Machine.interpret_append limit p p', interpret_wide hs ha hb, hfirst] at hrun
  rw [hrun, Option.map_some, Option.bind_some, Option.map_map]
  rfl

end

/-- The values of a unit are in the heap that it leaves. -/
theorem Reachable.sound_interpret {time : Float} {limit : Nat} {s s₁ : Session}
    {source : List UInt8} {p : List Stmt} {values : List (Option Value)} {m : Machine}
    (hs : Reachable time s) (ha : s.accept? source = some (p, s₁))
    (h : s₁.machine.interpret limit p = some (.ok values, m)) :
    m.heap.Sound ∧ ∀ v, some v ∈ values → m.heap.Has v := by
  have hsound : s₁.machine.heap.Sound := by
    rw [(touched_accept? ha).machine]
    exact hs.sound
  obtain ⟨hsound', -, hhas⟩ := Machine.sound_interpret hsound h
  exact ⟨hsound', hhas values rfl⟩

theorem shown_of_grows {s s' : Session} {values : List (Option Value)}
    (hs : s.machine.heap.Sound) (hhas : ∀ v, some v ∈ values → s.machine.heap.Has v)
    (hgrows : s.machine.heap.Grows s'.machine.heap) : s'.shown values = s.shown values := by
  apply List.map_congr_left
  intro o ho
  cases o with
  | none => rfl
  | some v => simp only [Option.map_some, Heap.text_of_grows hs hgrows (hhas v ho)]

/-- Programs that do the same up to references and lines after values that are there. -/
theorem rel_of_unplaced {f : Nat → Nat} {limit : Nat} {d : Distances} {s s' t : Session}
    {earlier : List (Option Value)} {later program : List Stmt} (hs : s.machine.heap.Sound)
    (hhas : ∀ v, some v ∈ earlier → s.machine.heap.Has v)
    (hheap : s'.machine.heap = s.machine.heap)
    (h : (t.machine.interpret limit program).map (fun r =>
        (renameOutcome (.unplaced id) r.1, r.2.rename (.unplaced id) d)) =
      (s'.machine.interpret limit later).map fun r =>
        (renameOutcome (.unplaced f) (r.1.map (earlier ++ ·)), r.2.rename (.unplaced f) d)) :
    Option.Rel (fun r r' =>
        Continues (s.shown earlier) (r.1.map r.2.shown) (r'.1.map r'.2.shown) ∧
          r'.2.machine.output = r.2.machine.output)
      (s'.interpret limit later) (t.interpret limit program) := by
  rw [Session.interpret, Session.interpret]
  cases hlater : s'.machine.interpret limit later with
  | none =>
    rw [hlater] at h
    rw [Option.map_eq_none_iff.1 h]
    exact .none
  | some r =>
    obtain ⟨o, m⟩ := r
    rw [hlater] at h
    obtain ⟨⟨o', m'⟩, hprogram, heq⟩ := Option.map_eq_some_iff.1 h
    rw [hprogram]
    obtain ⟨houtcome, hmachine⟩ := Prod.mk.inj heq
    have htext : m'.heap.text = m.heap.text := by
      funext v
      have htext := congrArg (fun m => m.heap.text v) hmachine
      simpa only [Machine.rename, Heap.text_rename] using htext
    have hgrows : s.machine.heap.Grows m.heap := by
      rw [← hheap] at hs ⊢
      exact (Machine.sound_interpret hs hlater).2.1
    have houtput := congrArg Machine.output hmachine
    exact .some ⟨continues_of_unplaced houtcome htext (shown_of_grows hs hhas hgrows), houtput⟩

end Session

/-- Two units that are accepted give one after the other what they give as one unit with a line end
between them: if the first one runs to its end, then the same output, the same values with the same
texts, and the same fault up to its line; if it fails, then the same fault and output. -/
theorem two_units_eq_one {time : Float} {s : Session} {a b : List UInt8}
    (hs : Session.Reachable time s) (ha : (s.accept? a).isSome) (hb : (s.accept? b).isSome)
    (limit : Nat) :
    (∀ values s₁, s.run limit a = some (.ok values, s₁) →
      Option.Rel (fun r r' =>
        Continues (s₁.shown values) (r.1.map r.2.shown) (r'.1.map r'.2.shown) ∧
          r'.2.machine.output = r.2.machine.output)
        (s₁.run limit b) (s.run limit (a ++ 10 :: b))) ∧
    (∀ d s₁, s.run limit a = some (.error d, s₁) →
      ∃ s', s.run limit (a ++ 10 :: b) = some (.error d, s') ∧
        s'.machine.output = s₁.machine.output) ∧
    (s.run limit a = none → s.run limit (a ++ 10 :: b) = none) := by
  obtain ⟨⟨p, sa⟩, ha⟩ := Option.isSome_iff_exists.1 ha
  obtain ⟨⟨p₀, s₀⟩, hb⟩ := Option.isSome_iff_exists.1 hb
  have hsettled := hs.settled
  have hsettledA := hsettled.accept? ha
  obtain ⟨sb, hb⟩ := ((Session.touched_accept? ha).renumbered hsettled hsettledA).accept? hb
  generalize renameStmts _ p₀ = p' at hb
  obtain ⟨f, q, t, hc, hlines, hheap, hagree⟩ := Session.accept?_join hsettled ha hb
  have hfirst : t.machine.interpret limit _ = _ :=
    Session.interpret_first hsettled ha hb hc hheap hagree
  rw [Session.run_of_accept? ha, Session.run_of_accept? hc]
  refine ⟨?_, ?_, ?_⟩
  · intro values s₁ h
    rw [Session.interpret] at h
    split at h
    · cases h
    · next outcome m hi =>
      rcases outcome with g | values'
      · cases h
      · cases h
        have hdistances : m.distances = sa.machine.distances :=
          congrArg Registers.distances (Machine.registers_of_interpret hi)
        have hlater := Session.accept?_congr hb ⟨m, sa.nextReference⟩ rfl hdistances
        obtain ⟨hsound, hhas⟩ := hs.sound_interpret ha hi
        rw [Session.run_of_accept? hlater]
        exact Session.rel_of_unplaced hsound hhas rfl
          (Session.interpret_both hsettled ha hb hc hheap hagree hlines hi)
  · intro d s₁ h
    rw [Session.interpret] at h ⊢
    split at h
    · cases h
    · next outcome m hi =>
      rw [Machine.interpret_append, hfirst, hi]
      rcases outcome with g | values
      · cases h
        exact ⟨_, rfl, rfl⟩
      · cases h
  · intro h
    rw [Session.interpret] at h ⊢
    split at h
    · next hi =>
      rw [Machine.interpret_append, hfirst, hi]
      rfl
    · cases h

/-- A block that writes its local variable, and a call of a function from before. -/
def blockUnit : List UInt8 :=
  "\x7b var x = 2; print x; \x7d f();".toUTF8.toList

/-- A function that calls what is no function. -/
def failingUnit : List UInt8 :=
  "fun k() \x7b f()(); \x7d k();".toUTF8.toList

/-- The second unit fails inside of a call, after a function from before has given a value; so does
the joined one, but perhaps on another line. -/
theorem two_units_eq_one_with_fault :
    ∃ s values s₁ s₂ s' line', Session.Reachable 0 s ∧
      (s.accept? blockUnit).isSome ∧ (s.accept? failingUnit).isSome ∧
      s.run 99 blockUnit = some (.ok values, s₁) ∧
      s₁.run 99 failingUnit =
        some (.error (.runtime (.runtime (.notCallable .int) 1 ["k", "<script>"])), s₂) ∧
      s.run 99 (blockUnit ++ 10 :: failingUnit) =
        some (.error (.runtime (.runtime (.notCallable .int) line' ["k", "<script>"])), s') ∧
      s'.machine.output = s₂.machine.output := by
  have h : (((Session.start 0).run 99 localUnit).bind fun r =>
      (r.2.run 99 blockUnit).bind fun r₁ =>
      (r₁.2.run 99 failingUnit).map fun r₂ =>
        ((r.2.accept? blockUnit).isSome, (r.2.accept? failingUnit).isSome, failure? r₁.1,
          failure? r₂.1)) =
      some (true, true, none,
        some (.runtime (.runtime (.notCallable .int) 1 ["k", "<script>"]))) := by
    decide +kernel
  obtain ⟨⟨result, s⟩, hrun, h⟩ := Option.bind_eq_some_iff.1 h
  obtain ⟨⟨result₁, s₁⟩, hrun₁, h⟩ := Option.bind_eq_some_iff.1 h
  obtain ⟨⟨result₂, s₂⟩, hrun₂, h⟩ := Option.map_eq_some_iff.1 h
  simp only [Prod.mk.injEq] at h
  obtain ⟨ha, hb, hfirst, hsecond⟩ := h
  rcases result₁ with d | values
  · cases hfirst
  rcases result₂ with d | values₂
  · cases hsecond
    have hs : Session.Reachable 0 s := .run .start hrun
    have hboth := (two_units_eq_one hs ha hb 99).1 values s₁ hrun₁
    rw [hrun₂] at hboth
    generalize hjoined : s.run 99 (blockUnit ++ 10 :: failingUnit) = joined at hboth
    cases hboth with
    | @some _ r hr =>
      obtain ⟨result', s'⟩ := r
      obtain ⟨hcontinues, houtput⟩ := hr
      obtain ⟨line', rfl⟩ := hcontinues.eq_fault
      exact ⟨s, values, s₁, s₂, s', line', hs, ha, hb, hrun₁, hrun₂, hjoined, houtput⟩
  · cases hsecond

end TreeWalk
