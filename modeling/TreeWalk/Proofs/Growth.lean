import TreeWalk.Proofs.Edits
import TreeWalk.Proofs.Lasting

/-!
# Heap and output only grow

What has been made stays: scopes stay where they are and keep their names, instances keep their class
and the names of their fields, and functions, classes and arrays stay as they are (`Heap.Extends`). Of
the output, what was written stays, and what is added is whole lines, each with the text that a value had
when it was written (`Machine.Grows`). Every operation on a machine is like that, so whatever a machine
runs is, however it ends (`Machine.grows_of_run`). Nothing is asked of the machine before.
-/

namespace TreeWalk

namespace Heap

variable {h h' h'' : Heap}

/-- Things were added, and variables and fields may have other values. -/
structure Extends (h h' : Heap) : Prop extends Grows h h' where
  enclosing : h.scopes.cells.toList.map Scope.enclosing <+: h'.scopes.cells.toList.map Scope.enclosing
  names : ∀ e x, h.scopes.binds e x → h'.scopes.binds e x
  fields : ∀ r x, (h.instance_ r).fields.contains x → (h'.instance_ r).fields.contains x

theorem Extends.refl (h : Heap) : h.Extends h :=
  ⟨.refl h, List.prefix_rfl, fun _ _ hx => hx, fun _ _ hx => hx⟩

theorem Extends.trans (he : h.Extends h') (he' : h'.Extends h'') : h.Extends h'' where
  toGrows := he.toGrows.trans he'.toGrows
  enclosing := he.enclosing.trans he'.enclosing
  names e x hx := he'.names e x (he.names e x hx)
  fields r x hx := he'.fields r x (he.fields r x hx)

/-! ### Operations on a heap -/

/-- Where scopes and instances are as they were, only what is made needs a look. -/
theorem Grows.extends (hg : h.Grows h') (hscopes : h'.scopes = h.scopes)
    (hinstances : h'.instances = h.instances) : h.Extends h' where
  toGrows := hg
  enclosing := hscopes ▸ List.prefix_rfl
  names e x hx := by rwa [hscopes]
  fields r x hx := by rwa [Heap.instance_, hinstances]

theorem extends_newScope (h : Heap) (outer : Nat) : h.Extends (h.newScope outer).2 where
  toGrows := h.grows_newScope outer
  enclosing := by simp [newScope, Scopes.child]
  names := (Scopes.extends_child h.scopes outer).binds
  fields _ _ hx := hx

theorem extends_define (h : Heap) (e : Nat) (x : String) (v : Value) :
    h.Extends (h.define e x v) where
  toGrows := h.grows_define e x v
  enclosing := by
    have hsame : (h.define e x v).scopes.cells.toList.map Scope.enclosing =
        h.scopes.cells.toList.map Scope.enclosing := by
      apply List.ext_getElem?
      intro i
      simp only [define, Scopes.define, List.getElem?_map, Array.getElem?_toList,
        Array.getElem?_modify]
      split
      · cases h.scopes.cells[i]? <;> rfl
      · rfl
    exact hsame ▸ List.prefix_rfl
  names := (Scopes.extends_define h.scopes e x v).binds
  fields _ _ hx := hx

theorem extends_newInstance (h : Heap) (c : Nat) : h.Extends (h.newInstance c).2 where
  toGrows := h.grows_newInstance c
  enclosing := List.prefix_rfl
  names _ _ hx := hx
  fields r x hx := by
    rw [instance_newInstance]
    split
    · next heq =>
      -- there was no such instance before
      rw [heq, instance_, Array.getElem?_eq_none (Nat.le_refl _)] at hx
      cases hx
    · exact hx

theorem extends_setField (h : Heap) (r : Nat) (x : String) (v : Value) :
    h.Extends (h.setField r x v) where
  toGrows := h.grows_setField r x v
  enclosing := List.prefix_rfl
  names _ _ hx := hx
  fields r' y hy := by
    rw [instance_] at hy ⊢
    rw [setField, Array.getElem?_modify]
    split
    · next heq =>
      subst heq
      cases hi : h.instances[r]? with
      | none =>
        rw [hi] at hy
        exact hy
      | some i =>
        rw [hi] at hy
        show (i.fields.set x v).contains y
        rw [Table.contains_set, Bool.or_eq_true]
        exact .inr hy
    · exact hy

end Heap

namespace Machine

variable {m m' m'' : Machine}

/-- The heap has been extended, and values have been written, each with the text that it had in the
heap of the moment and on lines of its own. -/
structure Grows (m m' : Machine) : Prop where
  heap : m.heap.Extends m'.heap
  output : ∃ printed : List (Heap × Value),
    m'.output = m.output ++ String.join (printed.map fun p => p.1.text p.2 ++ "\n") ∧
    ∀ p ∈ printed, m.heap.Extends p.1 ∧ p.1.Extends m'.heap

theorem Grows.refl (m : Machine) : m.Grows m :=
  ⟨.refl _, [], (String.append_empty).symm, nofun⟩

theorem Grows.trans (h : m.Grows m') (h' : m'.Grows m'') : m.Grows m'' := by
  obtain ⟨printed, hout, hheaps⟩ := h.output
  obtain ⟨printed', hout', hheaps'⟩ := h'.output
  refine ⟨h.heap.trans h'.heap, printed ++ printed', ?_, ?_⟩
  · rw [hout', hout, List.map_append, String.join_append, String.append_assoc]
  · intro p hp
    rcases List.mem_append.1 hp with hp | hp
    · obtain ⟨hbefore, hafter⟩ := hheaps p hp
      exact ⟨hbefore, hafter.trans h'.heap⟩
    · obtain ⟨hbefore, hafter⟩ := hheaps' p hp
      exact ⟨h.heap.trans hbefore, hafter⟩

/-- Nothing is written. -/
theorem grows_silent (hheap : m.heap.Extends m'.heap) (houtput : m'.output = m.output) : m.Grows m' :=
  ⟨hheap, [], houtput.trans String.append_empty.symm, nofun⟩

theorem grows_print (m : Machine) (v : Value) : m.Grows (m.printLine (m.heap.text v)) := by
  refine ⟨.refl _, [(m.heap, v)], ?_, ?_⟩
  · simp [printLine, String.append_assoc]
  · intro p hp
    obtain rfl := List.mem_singleton.1 hp
    exact ⟨.refl _, .refl _⟩

/-- One operation. -/
theorem Edit.grows (h : Edit m m') : m.Grows m' := by
  cases h with
  | registers scope calls depth => exact grows_silent (.refl _) rfl
  | newFunction f => exact grows_silent ((m.heap.grows_newFunction f).extends rfl rfl) rfl
  | newClass c => exact grows_silent ((m.heap.grows_newClass c).extends rfl rfl) rfl
  | newArray elements => exact grows_silent ((m.heap.grows_newArray elements).extends rfl rfl) rfl
  | newInstance c => exact grows_silent (m.heap.extends_newInstance c) rfl
  | newScope outer => exact grows_silent (m.heap.extends_newScope outer) rfl
  | define e x v => exact grows_silent (m.heap.extends_define e x v) rfl
  | setField r x v => exact grows_silent (m.heap.extends_setField r x v) rfl
  | print v => exact m.grows_print v

theorem Edits.grows (h : m.Edits m') : m.Grows m' := by
  induction h with
  | refl => exact .refl m
  | tail _ hedit ih => exact ih.trans hedit.grows

/-- Whatever is evaluated, executed or called, and however that ends, the machine has only grown; and
so it has after any number of steps, whether or not they come to an end. -/
theorem grows_of_run (limit : Nat) (m m' : Machine) :
    (∀ e outcome, m.evaluate limit e = some (outcome, m') → m.Grows m') ∧
    (∀ x outcome, m.execute limit x = some (outcome, m') → m.Grows m') ∧
    (∀ callee arguments line outcome,
      m.call limit callee arguments line = some (outcome, m') → m.Grows m') ∧
    ∀ (st : State) (count : Nat), st.machine.Grows (st.steps count).machine :=
  ⟨fun _ _ h => (edits_of_evaluate h).grows, fun _ _ h => (edits_of_execute h).grows,
    fun _ _ _ _ h => (edits_of_call h).grows, fun st count => (st.edits_steps count).grows⟩

/-- A block that writes a line, gives a global variable a value and fails. -/
def failingBlock : Stmt :=
  let name : Token := ⟨.identifier, "len", 1⟩
  let unknown : Token := ⟨.identifier, "x", 1⟩
  .block [.print (.array name [.literal (.int 7)]),
    .expression (.assign 0 name (.literal .nil)), .expression (.variable 1 unknown)]

/-- The block fails as a statement and as the body of a lambda that is called, and a call with a value
that cannot be called fails at once. -/
theorem grows_of_run_failing :
    let m := Machine.initial 0
    let name : Token := ⟨.identifier, "f", 1⟩
    (∃ f m', m.evaluate 30 (.call (.lambda ⟨none, [], [failingBlock], name⟩) name []) =
      some (.error f, m') ∧ m.Grows m') ∧
    (∃ f m', m.execute 30 failingBlock = some (.error f, m') ∧ m'.output = "[7]\n" ∧ m.Grows m') ∧
    (∃ f m', m.call 30 .nil [] 1 = some (.error f, m') ∧ m.Grows m') := by
  intro m name
  refine ⟨?_, ?_, ?_⟩
  · have h : (m.evaluate 30 (.call (.lambda ⟨none, [], [failingBlock], name⟩) name [])).map
        (·.1.isOk) = some false := by decide +kernel
    obtain ⟨⟨_ | _, m'⟩, hr, ho⟩ := Option.map_eq_some_iff.1 h
    · exact ⟨_, m', hr, (grows_of_run 30 m m').1 _ _ hr⟩
    · cases ho
  · have h : (m.execute 30 failingBlock).map (fun r => (r.1.isOk, r.2.output)) =
        some (false, "[7]\n") := by decide +kernel
    obtain ⟨⟨_ | _, m'⟩, hr, ho⟩ := Option.map_eq_some_iff.1 h
    · exact ⟨_, m', hr, (Prod.mk.inj ho).2, (grows_of_run 30 m m').2.1 _ _ hr⟩
    · cases (Prod.mk.inj ho).1
  · have h : (m.call 30 .nil [] 1).map (·.1.isOk) = some false := by decide +kernel
    obtain ⟨⟨_ | _, m'⟩, hr, ho⟩ := Option.map_eq_some_iff.1 h
    · exact ⟨_, m', hr, (grows_of_run 30 m m').2.2.1 _ _ _ _ hr⟩
    · cases ho

end Machine

end TreeWalk
