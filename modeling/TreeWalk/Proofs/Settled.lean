import TreeWalk.Proofs.Rereading
import TreeWalk.Proofs.History

/-!
# References that have not been given out

Between two units no function in the heap carries a reference that has not been given out, and no
such reference has a distance (`Session.Settled`). That a heap is free of these references is said
by renaming: whatever they are renamed to, the heap stays the same. So it needs no look at the steps
of a run, for a run of a renamed machine is known already.
-/

namespace TreeWalk

/-- Renames references from `n` on to such references, and no others. -/
structure Above (n : Nat) (f : Nat → Nat) : Prop where
  below : ∀ r, r < n → f r = r
  above : ∀ r, n ≤ r → n ≤ f r

theorem Above.mono {n n' : Nat} {f : Nat → Nat} (h : Above n' f) (hn : n ≤ n') : Above n f where
  below r hr := h.below r (Nat.lt_of_lt_of_le hr hn)
  above r hr := by
    by_cases hr' : r < n'
    · rw [h.below r hr']
      exact hr
    · exact Nat.le_trans hn (h.above r (Nat.le_of_not_lt hr'))

/-- No function of the heap carries a reference from `n` on. -/
def Heap.Settled (n : Nat) (h : Heap) : Prop :=
  ∀ f, Above n f → h.rename (.references f) = h

theorem Heap.Settled.mono {n n' : Nat} {h : Heap} (hh : h.Settled n) (hn : n ≤ n') :
    h.Settled n' :=
  fun f hf => hh f (hf.mono hn)

/-- No reference from `n` on has a distance. -/
def Distances.Settled (n : Nat) (d : Distances) : Prop :=
  ∀ r, n ≤ r → d.get? r = none

theorem Distances.Settled.agree {n : Nat} {d : Distances} (hd : d.Settled n) {f : Nat → Nat}
    (hf : Above n f) : d.Agree (.references f) d := by
  intro r
  by_cases hr : r < n
  · rw [Renaming.references_reference, hf.below r hr]
  · have hr : n ≤ r := Nat.le_of_not_lt hr
    rw [Renaming.references_reference, hd _ (hf.above r hr), hd r hr]

theorem renameStmts_settled {n : Nat} {program : List Stmt}
    (hprogram : ∀ r ∈ referencesStmts program, r < n) {f : Nat → Nat} (hf : Above n f) :
    renameStmts (.references f) program = program := by
  apply eq_of_eraseStmts
  · rw [← renameStmts_erasing, renameStmts_renameStmts, ← renameStmts_erasing]
    rfl
  · rw [referencesStmts_rename]
    have hmap : (referencesStmts program).map f = (referencesStmts program).map id :=
      List.map_congr_left fun r hr => hf.below r (hprogram r hr)
    rw [Renaming.references_reference, hmap, List.map_id]

theorem Machine.rename_settled {m : Machine} {n : Nat} (hheap : m.heap.Settled n) {f : Nat → Nat}
    (hf : Above n f) : m.rename (.references f) m.distances = m := by
  rw [Machine.rename, hheap f hf]

/-- A program brings no other references into the heap than its own. -/
theorem Machine.settled_interpret {m m' : Machine} {n limit : Nat} {program : List Stmt}
    {outcome : Except Fault (List (Option Value))} (hheap : m.heap.Settled n)
    (hdistances : m.distances.Settled n) (hprogram : ∀ r ∈ referencesStmts program, r < n)
    (h : m.interpret limit program = some (outcome, m')) : m'.heap.Settled n := by
  intro f hf
  have hrun := Machine.interpret_rename (hdistances.agree hf) limit program
  rw [Machine.rename_settled hheap hf, renameStmts_settled hprogram hf, h] at hrun
  have hm' : m' = m'.rename (.references f) m.distances :=
    congrArg Prod.snd (Option.some.inj hrun)
  exact (congrArg Machine.heap hm').symm

namespace Session

variable {s s' : Session} {source : List UInt8} {program : List Stmt}

structure Settled (s : Session) : Prop where
  heap : s.machine.heap.Settled s.nextReference
  distances : s.machine.distances.Settled s.nextReference

theorem settled_start (time : Float) : (start time).Settled where
  heap f _ := by
    -- the builtin functions are values of variables, and there is no other function
    refine Machine.initial_heap (P := fun h => h.rename (.references f) = h) time ?_ ?_
    · simp [Heap.rename, Heap.empty]
    · intro h b hh
      rw [← Heap.define_rename, hh]
  distances _ _ := Distances.get?_empty _

theorem Settled.of_le (h : s.Settled) (hmachine : s'.machine = s.machine)
    (hn : s.nextReference ≤ s'.nextReference) : s'.Settled where
  heap := hmachine ▸ h.heap.mono hn
  distances r hr := by
    rw [hmachine]
    exact h.distances r (Nat.le_trans hn hr)

theorem nextReference_parse (source : List UInt8) (s : Session) :
    s.nextReference ≤ (s.parse source).2.nextReference := by
  unfold parse
  split
  · exact Nat.le_refl _
  · next tokens _ =>
    have hle := le_parseProgram tokens s.nextReference
    split
    · next heq =>
      rw [heq] at hle
      exact hle
    · next heq =>
      rw [heq] at hle
      exact hle

theorem Settled.parse (h : s.Settled) (source : List UInt8) : (s.parse source).2.Settled :=
  h.of_le (machine_parse source s) (nextReference_parse source s)

/-- Checking a program changes distances under its references only. -/
theorem get?_resolve {r : Nat} (hr : r ∉ referencesStmts program) :
    (s.resolve program).2.machine.distances.get? r = s.machine.distances.get? r := by
  rw [resolve_eq]
  exact (Part.stmts program).touches .top s.machine.distances r hr

theorem Settled.resolve (h : s.Settled)
    (hprogram : ∀ r ∈ referencesStmts program, r < s.nextReference) :
    (s.resolve program).2.Settled where
  heap := by
    rw [resolve_eq]
    exact h.heap
  distances r hr := by
    have hnext : (s.resolve program).2.nextReference = s.nextReference := by rw [resolve_eq]
    rw [hnext] at hr
    rw [get?_resolve fun hmem => Nat.lt_irrefl r (Nat.lt_of_lt_of_le (hprogram r hmem) hr)]
    exact h.distances r hr

theorem nextReference_resolve (program : List Stmt) (s : Session) :
    (s.resolve program).2.nextReference = s.nextReference := by
  rw [resolve_eq]

theorem Settled.interpret {m : Machine} {limit : Nat}
    {outcome : Except Fault (List (Option Value))} (h : s.Settled)
    (hprogram : ∀ r ∈ referencesStmts program, r < s.nextReference)
    (hi : s.machine.interpret limit program = some (outcome, m)) :
    Session.Settled ⟨m, s.nextReference⟩ where
  heap := Machine.settled_interpret h.heap h.distances hprogram hi
  distances := by
    have hr := Machine.registers_of_interpret hi
    have hdistances : m.distances = s.machine.distances := congrArg Registers.distances hr
    show m.distances.Settled s.nextReference
    rw [hdistances]
    exact h.distances

theorem Settled.run {limit : Nat} {result : Except Diagnostic (List (Option Value))}
    (h : s.Settled) (hr : s.run limit source = some (result, s')) : s'.Settled := by
  have hparse := h.parse source
  unfold Session.run at hr
  split at hr
  · next heq =>
    rw [heq] at hparse
    cases hr
    exact hparse
  · next program s₁ heq =>
    rw [heq] at hparse
    have hprogram : ∀ r ∈ referencesStmts program, r < s₁.nextReference :=
      fun r hr => ((parse_ok heq).2.2.bounds r hr).2
    have hresolve := hparse.resolve hprogram
    have hnext := nextReference_resolve program s₁
    split at hr
    · next heq' =>
      rw [heq'] at hresolve
      cases hr
      exact hresolve
    · next s₂ heq' =>
      rw [heq'] at hresolve hnext
      unfold Session.interpret at hr
      split at hr
      · cases hr
      · next hi =>
        cases hr
        exact hresolve.interpret (fun r hr => hnext ▸ hprogram r hr) hi

theorem Reachable.settled {time : Float} (h : Reachable time s) : s.Settled := by
  induction h with
  | start => exact settled_start time
  | run _ hr ih => exact ih.run hr

end Session

end TreeWalk
