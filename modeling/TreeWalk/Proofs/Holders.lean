import TreeWalk.Proofs.Chain
import TreeWalk.Machine.Step
import TreeWalk.Diagnostic

/-!
# The scope that holds a variable

A variable is looked for from a scope outwards, or at a distance that is known beforehand. In all
scopes that come about one by one (`Scopes.Built`) both ways lead to the same place: the scope nearest
to `e` that binds `x` (`Scopes.Nearest`) is where both read and where both write. As many scopes may
share the one that is written to, a write is seen only from those for which it is the nearest too
(`Scopes.Writes`, `Scopes.Built.access_agrees`). Where no scope binds the variable, nothing is read or
written, and the machine goes on with a fault.
-/

namespace TreeWalk

namespace Scopes

variable {s s' : Scopes} {e d holder : Nat} {x : String} {v : Value}

/-- Scopes as they come about: one around everything, to which scopes inside of others are added and
in which variables are given values. -/
inductive Built : Scopes → Prop
  | root : Built root
  | child {s : Scopes} {e : Nat} (h : Built s) (he : e < s.nextScope) : Built (s.child e)
  | define {s : Scopes} (h : Built s) (e : Nat) (x : String) (v : Value) : Built (s.define e x v)
  | assign {s s' : Scopes} {e : Nat} {x : String} {v : Value} (h : Built s)
      (hs : s.assign? e x v = some s') : Built s'
  | assignAt {s s' : Scopes} {e d : Nat} {x : String} {v : Value} (h : Built s)
      (hs : s.assignAt? e d x v = some s') : Built s'

/-- No scope `d` steps out of `e` binds `x`: there is none, or it does not. -/
def Misses (s : Scopes) (e d : Nat) (x : String) : Prop :=
  ∀ holder, s.ancestor? d e = some holder → s.here? holder x = none

/-- Of the scopes around `e` that bind `x`, `holder` is the nearest, `d` steps out. -/
structure Nearest (s : Scopes) (e : Nat) (x : String) (d holder : Nat) : Prop where
  ancestor : s.ancestor? d e = some holder
  binds : s.here? holder x ≠ none
  least : ∀ d' < d, s.Misses e d' x

/-- `s'` is `s` but for the value of `x` in `holder`. -/
structure Writes (s s' : Scopes) (holder : Nat) (x : String) (v : Value) : Prop where
  here : s'.here? holder x = some v
  others : ∀ e y, e ≠ holder ∨ y ≠ x → s'.here? e y = s.here? e y
  enclosing : ∀ e, (s'.cell e).enclosing = (s.cell e).enclosing
  nextScope : s'.nextScope = s.nextScope
  seen : ∀ e y, s'.get? e y ≠ s.get? e y → y = x ∧ ∃ d, s.Nearest e y d holder

/-! ### Chains of scopes end -/

/-- A scope lies inside of earlier ones only. -/
def Ordered (s : Scopes) : Prop :=
  ∀ e outer, (s.cell e).enclosing = some outer → outer < e

theorem Ordered.define (h : s.Ordered) (e : Nat) (x : String) (v : Value) :
    (s.define e x v).Ordered := by
  intro e' outer houter
  rw [enclosing_define] at houter
  exact h e' outer houter

theorem assign?_eq_some (h : s.assign? e x v = some s') :
    ∃ holder, s.holder? e x = some holder ∧ s' = s.define holder x v := by
  unfold assign? at h
  split at h
  · next holder hholder =>
    cases h
    exact ⟨holder, hholder, rfl⟩
  · cases h

theorem assignAt?_eq_some (h : s.assignAt? e d x v = some s') :
    ∃ holder, s.holderAt? e d x = some holder ∧ s' = s.define holder x v := by
  unfold assignAt? at h
  split at h
  · next holder hholder =>
    cases h
    exact ⟨holder, hholder, rfl⟩
  · cases h

theorem Built.ordered (h : s.Built) : s.Ordered := by
  induction h with
  | root =>
    intro e outer houter
    cases e with
    | zero => cases houter
    | succ e =>
      rw [cell_of_le (Nat.succ_le_succ (Nat.zero_le e))] at houter
      cases houter
  | child _ he ih =>
    intro e outer houter
    rw [cell_child] at houter
    split at houter
    · next heq =>
      cases houter
      exact heq ▸ he
    · exact ih e outer houter
  | define _ e x v ih => exact ih.define e x v
  | assign _ hs ih =>
    obtain ⟨holder, -, rfl⟩ := assign?_eq_some hs
    exact ih.define holder _ _
  | assignAt _ hs ih =>
    obtain ⟨holder, -, rfl⟩ := assignAt?_eq_some hs
    exact ih.define holder _ _

theorem Ordered.add_le_of_ancestor? (h : s.Ordered) (ha : s.ancestor? d e = some holder) :
    holder + d ≤ e := by
  induction d generalizing e with
  | zero =>
    cases ha
    exact Nat.le_refl _
  | succ d ih =>
    rw [ancestor?] at ha
    split at ha
    · next outer houter =>
      have hlt := h e outer houter
      have hle := ih ha
      omega
    · cases ha

theorem Ordered.ancestor?_of_lt (h : s.Ordered) (hlt : e < d) : s.ancestor? d e = none := by
  cases ha : s.ancestor? d e with
  | none => rfl
  | some holder =>
    have hle := h.add_le_of_ancestor? ha
    omega

/-! ### The nearest scope -/

theorem binds_iff : s.binds e x ↔ s.here? e x ≠ none :=
  Option.isSome_iff_ne_none

theorem misses_zero : s.Misses e 0 x ↔ s.here? e x = none := by
  constructor
  · exact fun h => h e rfl
  · rintro h _ ⟨⟩
    exact h

theorem misses_succ {outer : Nat} (h : (s.cell e).enclosing = some outer) :
    s.Misses e (d + 1) x ↔ s.Misses outer d x := by
  simp only [Misses, ancestor?, h]

theorem nearest_zero : s.Nearest e x 0 holder ↔ holder = e ∧ s.here? e x ≠ none := by
  constructor
  · intro h
    cases h.ancestor
    exact ⟨rfl, h.binds⟩
  · rintro ⟨rfl, h⟩
    exact ⟨rfl, h, nofun⟩

theorem nearest_succ : s.Nearest e x (d + 1) holder ↔
    s.here? e x = none ∧ ∃ outer, (s.cell e).enclosing = some outer ∧ s.Nearest outer x d holder := by
  constructor
  · rintro ⟨ha, hbinds, hleast⟩
    rw [ancestor?] at ha
    split at ha
    · next outer houter =>
      refine ⟨misses_zero.1 (hleast 0 (Nat.succ_pos d)), outer, houter, ha, hbinds, ?_⟩
      intro d' hd'
      exact (misses_succ houter).1 (hleast (d' + 1) (Nat.succ_lt_succ hd'))
    · cases ha
  · rintro ⟨hnone, outer, houter, ha, hbinds, hleast⟩
    refine ⟨?_, hbinds, ?_⟩
    · rw [ancestor?, houter]
      exact ha
    · intro d' hd'
      cases d' with
      | zero => exact misses_zero.2 hnone
      | succ d' => exact (misses_succ houter).2 (hleast d' (Nat.lt_of_succ_lt_succ hd'))

theorem holderWithin_eq_some {fuel : Nat} :
    s.holderWithin x fuel e = some holder ↔ ∃ d < fuel, s.Nearest e x d holder := by
  induction fuel generalizing e with
  | zero => exact iff_of_false nofun fun ⟨_, hd, _⟩ => Nat.not_lt_zero _ hd
  | succ fuel ih =>
    rw [holderWithin]
    constructor
    · intro h
      split at h
      · next hbinds =>
        cases h
        exact ⟨0, Nat.succ_pos fuel, nearest_zero.2 ⟨rfl, binds_iff.1 hbinds⟩⟩
      · next hbinds =>
        split at h
        · next outer houter =>
          obtain ⟨d, hd, hnearest⟩ := ih.1 h
          have hnone := Classical.not_not.1 (mt binds_iff.2 hbinds)
          exact ⟨d + 1, Nat.succ_lt_succ hd, nearest_succ.2 ⟨hnone, outer, houter, hnearest⟩⟩
        · cases h
    · rintro ⟨d, hd, h⟩
      cases d with
      | zero =>
        obtain ⟨rfl, hbinds⟩ := nearest_zero.1 h
        rw [if_pos (binds_iff.2 hbinds)]
      | succ d =>
        obtain ⟨hnone, outer, houter, hnearest⟩ := nearest_succ.1 h
        rw [if_neg fun hbinds => binds_iff.1 hbinds hnone, houter]
        exact ih.2 ⟨d, Nat.lt_of_succ_lt_succ hd, hnearest⟩

/-- Looking outwards finds the nearest scope: as chains end, the search goes far enough. -/
theorem Ordered.holder?_eq_some (h : s.Ordered) :
    s.holder? e x = some holder ↔ ∃ d, s.Nearest e x d holder := by
  rw [holder?, holderWithin_eq_some]
  constructor
  · exact fun ⟨d, _, hnearest⟩ => ⟨d, hnearest⟩
  · rintro ⟨d, hnearest⟩
    have hle := h.add_le_of_ancestor? hnearest.ancestor
    exact ⟨d, by omega, hnearest⟩

theorem holder?_eq_none (hmisses : ∀ d, s.Misses e d x) : s.holder? e x = none := by
  cases hholder : s.holder? e x with
  | none => rfl
  | some holder =>
    obtain ⟨d, -, hnearest⟩ := holderWithin_eq_some.1 hholder
    exact absurd (hmisses d holder hnearest.ancestor) hnearest.binds

theorem Nearest.holderAt?_eq (h : s.Nearest e x d holder) : s.holderAt? e d x = some holder := by
  simp only [holderAt?, h.ancestor, binds_iff.2 h.binds, if_pos]

theorem Misses.holderAt?_eq (h : s.Misses e d x) : s.holderAt? e d x = none := by
  unfold holderAt?
  split
  · next holder ha =>
    rw [if_neg fun hbinds => binds_iff.1 hbinds (h holder ha)]
  · rfl

theorem Misses.getAt?_eq (h : s.Misses e d x) : s.getAt? e d x = none := by
  unfold getAt?
  split
  · next holder ha => exact h holder ha
  · rfl

/-! ### Writing -/

theorem ancestor?_define (s : Scopes) (holder : Nat) (x : String) (v : Value) (d e : Nat) :
    (s.define holder x v).ancestor? d e = s.ancestor? d e := by
  induction d generalizing e with
  | zero => rfl
  | succ d ih =>
    simp only [ancestor?, enclosing_define, ih]

/-- Giving a bound variable another value leaves all variables bound where they were. -/
theorem here?_define_eq_none (h : s.here? holder x ≠ none) {e : Nat} {y : String} :
    (s.define holder x v).here? e y = none ↔ s.here? e y = none := by
  by_cases heq : holder = e ∧ x = y
  · obtain ⟨rfl, rfl⟩ := heq
    obtain ⟨w, hw⟩ := Option.ne_none_iff_exists'.1 h
    rw [here?_define_self (lt_of_here? hw)]
    exact iff_of_false nofun h
  · rw [here?_define_ne s (Classical.not_and_iff_not_or_not.1 heq) v]

theorem misses_define (h : s.here? holder x ≠ none) {e d : Nat} {y : String} :
    (s.define holder x v).Misses e d y ↔ s.Misses e d y := by
  simp only [Misses, ancestor?_define, here?_define_eq_none h]

theorem nearest_define (h : s.here? holder x ≠ none) {e d found : Nat} {y : String} :
    (s.define holder x v).Nearest e y d found ↔ s.Nearest e y d found := by
  have hancestor := ancestor?_define s holder x v d e
  have hbinds := not_congr (here?_define_eq_none h (v := v) (e := found) (y := y))
  constructor
  · rintro ⟨ha, hb, hleast⟩
    exact ⟨hancestor.symm.trans ha, hbinds.1 hb, fun d' hd' => (misses_define h).1 (hleast d' hd')⟩
  · rintro ⟨ha, hb, hleast⟩
    exact ⟨hancestor.trans ha, hbinds.2 hb, fun d' hd' => (misses_define h).2 (hleast d' hd')⟩

theorem Ordered.writes (h : s.Ordered) (hbinds : s.here? holder x ≠ none) (v : Value) :
    s.Writes (s.define holder x v) holder x v := by
  obtain ⟨w, hw⟩ := Option.ne_none_iff_exists'.1 hbinds
  have hothers : ∀ e y, e ≠ holder ∨ y ≠ x → (s.define holder x v).here? e y = s.here? e y :=
    fun e y hne => s.here?_define_ne (hne.imp Ne.symm Ne.symm) v
  refine ⟨here?_define_self (lt_of_here? hw) x v, hothers, s.enclosing_define holder x v,
    s.nextScope_define holder x v, ?_⟩
  intro e y hget
  have hholder : (s.define holder x v).holder? e y = s.holder? e y := by
    refine Option.ext fun found => ?_
    rw [(h.define holder x v).holder?_eq_some, h.holder?_eq_some]
    exact exists_congr fun d => nearest_define hbinds
  rw [get?, get?, hholder] at hget
  cases hfound : s.holder? e y with
  | none =>
    rw [hfound] at hget
    exact absurd rfl hget
  | some found =>
    rw [hfound] at hget
    have heq : found = holder ∧ y = x := Classical.byContradiction fun hne =>
      hget (hothers found y (Classical.not_and_iff_not_or_not.1 hne))
    obtain ⟨rfl, rfl⟩ := heq
    exact ⟨rfl, h.holder?_eq_some.1 hfound⟩

end Scopes

namespace Machine

/-- The variable is not bound where it is looked for: in the scope at its distance or, without one,
in any scope around the global one. -/
def Misses (m : Machine) (reference : Nat) (name : Token) : Prop :=
  match m.distances.get? reference with
  | some d => m.heap.scopes.Misses m.scope d name.lexeme
  | none => ∀ d, m.heap.scopes.Misses m.globals d name.lexeme

theorem Misses.holder?_eq {m : Machine} {reference : Nat} {name : Token}
    (h : m.Misses reference name) : m.holder? reference name = none := by
  unfold Misses at h
  rw [holder?]
  cases hdistance : m.distances.get? reference with
  | some d =>
    rw [hdistance] at h
    exact h.holderAt?_eq
  | none =>
    rw [hdistance] at h
    exact Scopes.holder?_eq_none h

theorem Misses.lookUp_eq {m : Machine} {reference : Nat} {name : Token}
    (h : m.Misses reference name) : m.lookUp reference name = .error (undefined name) := by
  unfold Misses at h
  rw [lookUp]
  cases hdistance : m.distances.get? reference with
  | some d =>
    rw [hdistance] at h
    simp only [h.getAt?_eq]
  | none =>
    rw [hdistance] at h
    simp only [Scopes.get?, Scopes.holder?_eq_none h]

theorem undefined_text (name : Token) : (undefined name).text =
    lineText name.line ++ "Runtime error: " ++ ("Undefined variable '" ++ name.lexeme ++ "'.") :=
  String.append_empty

end Machine

/-- Chains of scopes end. What is bound by name is what is bound at the distance of the nearest scope
that binds it: there it is read, and there it is written, with the same outcome, which changes that
one variable and is seen only where that scope is the nearest. What is bound nowhere, or not at a given
distance, is neither read nor written, and a machine that looks for it goes on with the fault and is
otherwise as before. -/
theorem Scopes.Built.access_agrees {s : Scopes} (h : s.Built) (e : Nat) (x : String) (v : Value) :
    (∀ d, e < d → s.ancestor? d e = none) ∧
    (∀ d holder, s.Nearest e x d holder →
      (∃ w, s.get? e x = some w ∧ s.getAt? e d x = some w) ∧
      ∃ s', s.assign? e x v = some s' ∧ s.assignAt? e d x v = some s' ∧ s.Writes s' holder x v) ∧
    ((¬ ∃ d holder, s.Nearest e x d holder) → s.get? e x = none ∧ s.assign? e x v = none) ∧
    (∀ d, s.Misses e d x → s.getAt? e d x = none ∧ s.assignAt? e d x v = none) ∧
    ∀ (m : Machine) (name : Token), ∃ f : Fault,
      f.text =
        lineText name.line ++ "Runtime error: " ++ ("Undefined variable '" ++ name.lexeme ++ "'.") ∧
      (∀ reference, m.Misses reference name → m.lookUp reference name = .error f ∧
        ∀ stack, State.giveValue v (.assign reference name) stack m = ⟨.fault f, stack, m⟩) ∧
      ((∀ d, m.heap.scopes.Misses m.scope d name.lexeme) → ∀ operator size fixity stack,
        State.stepVariable operator size name fixity stack m = ⟨.fault f, stack, m⟩) := by
  have hordered := h.ordered
  refine ⟨fun d hd => hordered.ancestor?_of_lt hd, ?_, ?_, ?_, ?_⟩
  · intro d holder hnearest
    have hholder := hordered.holder?_eq_some.2 ⟨d, hnearest⟩
    obtain ⟨w, hw⟩ := Option.ne_none_iff_exists'.1 hnearest.binds
    refine ⟨⟨w, ?_, ?_⟩, s.define holder x v, ?_, ?_, hordered.writes hnearest.binds v⟩
    · simp only [get?, hholder, hw]
    · simp only [getAt?, hnearest.ancestor, hw]
    · simp only [assign?, hholder]
    · simp only [assignAt?, hnearest.holderAt?_eq]
  · intro hnone
    have hholder : s.holder? e x = none :=
      Option.eq_none_iff_forall_ne_some.2 fun holder hholder => by
        obtain ⟨d, hnearest⟩ := hordered.holder?_eq_some.1 hholder
        exact hnone ⟨d, holder, hnearest⟩
    exact ⟨by simp only [get?, hholder], by simp only [assign?, hholder]⟩
  · intro d hmisses
    exact ⟨hmisses.getAt?_eq, by simp only [assignAt?, hmisses.holderAt?_eq]⟩
  · intro m name
    refine ⟨Machine.undefined name, Machine.undefined_text name, ?_, ?_⟩
    · intro reference hmisses
      refine ⟨hmisses.lookUp_eq, fun stack => ?_⟩
      simp only [State.giveValue, hmisses.holder?_eq]
    · intro hmisses operator size fixity stack
      simp only [State.stepVariable, holder?_eq_none hmisses]

/-- A variable of the scope in between hides the one of the outermost scope. -/
def Scopes.shadowed : Scopes :=
  (((Scopes.root.define 0 "a" (.int 1)).child 0).define 1 "a" (.int 2)).child 1

theorem Scopes.Built.access_agrees_shadowed :
    Scopes.shadowed.Built ∧ Scopes.shadowed.Nearest 2 "a" 1 1 ∧
      Scopes.shadowed.get? 2 "a" = some (.int 2) ∧
      ∃ s', Scopes.shadowed.assign? 2 "a" .nil = some s' ∧
        Scopes.shadowed.assignAt? 2 1 "a" .nil = some s' ∧
        Scopes.shadowed.Writes s' 1 "a" .nil := by
  have hbuilt : Scopes.shadowed.Built :=
    ((Built.root.define 0 "a" (.int 1)).child Nat.zero_lt_one).define 1 "a" (.int 2)
      |>.child (Nat.lt_succ_self 1)
  have hnearest : Scopes.shadowed.Nearest 2 "a" 1 1 := by
    refine nearest_succ.2 ⟨rfl, 1, rfl, nearest_zero.2 ⟨rfl, ?_⟩⟩
    exact Option.ne_none_iff_exists'.2 ⟨.int 2, rfl⟩
  obtain ⟨-, hfound, -⟩ := Scopes.Built.access_agrees hbuilt 2 "a" .nil
  exact ⟨hbuilt, hnearest, rfl, (hfound 1 1 hnearest).2⟩

end TreeWalk
