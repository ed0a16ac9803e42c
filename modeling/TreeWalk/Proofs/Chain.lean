import TreeWalk.Proofs.Visits
import TreeWalk.Heap

/-!
# Scopes of the walk and scopes of the machine

While a program runs, scopes are only added and variables are only given values
(`Scopes.Extends`). `Chain log s pending e sites scopes` says that the scope `e` of the machine and
the scopes around it are those of the walk: they were made for `sites`, every name that the walk has
marked in one of `scopes` has a value in its counterpart, and behind the last of them is the global
scope, which is number zero. The names in `pending` are yet to get their values.
-/

namespace TreeWalk

namespace Scopes

variable {s s' s'' : Scopes}

/-- Scopes were added and variables given values, and nothing else has changed. -/
structure Extends (s s' : Scopes) : Prop where
  enclosing : ∀ e outer, (s.cell e).enclosing = some outer → (s'.cell e).enclosing = some outer
  binds : ∀ e x, s.binds e x → s'.binds e x

theorem Extends.refl (s : Scopes) : s.Extends s :=
  ⟨fun _ _ h => h, fun _ _ h => h⟩

theorem Extends.trans (h : s.Extends s') (h' : s'.Extends s'') : s.Extends s'' :=
  ⟨fun e outer he => h'.enclosing e outer (h.enclosing e outer he),
    fun e x hx => h'.binds e x (h.binds e x hx)⟩

theorem cell_child (s : Scopes) (outer e : Nat) :
    (s.child outer).cell e = if e = s.nextScope then ⟨some outer, []⟩ else s.cell e := by
  unfold cell child nextScope
  rw [Array.getElem?_push]
  split <;> rfl

theorem cell_of_le {e : Nat} (h : s.nextScope ≤ e) : s.cell e = Scope.blank := by
  unfold cell
  rw [Array.getElem?_eq_none h]
  rfl

theorem extends_child (s : Scopes) (outer : Nat) : s.Extends (s.child outer) := by
  have hblank : s.cell s.nextScope = Scope.blank := cell_of_le (Nat.le_refl _)
  constructor
  · intro e o he
    rw [cell_child]
    split
    · next heq =>
      rw [heq, hblank] at he
      cases he
    · exact he
  · intro e x hx
    rw [binds, cell_child]
    split
    · next heq =>
      rw [heq, binds, hblank] at hx
      cases hx
    · exact hx

theorem cell_define (s : Scopes) (e : Nat) (x : String) (v : Value) (e' : Nat) :
    (s.define e x v).cell e' =
      if e = e' ∧ e < s.nextScope then { s.cell e with bindings := (s.cell e).bindings.set x v }
      else s.cell e' := by
  unfold cell define nextScope
  rw [Array.getElem?_modify]
  by_cases he : e = e'
  · subst he
    by_cases hlt : e < s.cells.size
    · simp [hlt]
    · simp [hlt]
  · simp [he]

theorem extends_define (s : Scopes) (e : Nat) (x : String) (v : Value) :
    s.Extends (s.define e x v) := by
  constructor
  · intro e' o he
    rw [cell_define]
    split
    · next h =>
      rw [h.1]
      exact he
    · exact he
  · intro e' y hy
    rw [binds, cell_define]
    split
    · next h =>
      rw [← h.1] at hy
      show Table.contains y ((s.cell e).bindings.set x v) = true
      rw [Table.contains_set, Bool.or_eq_true]
      exact .inr hy
    · exact hy

theorem binds_define {e : Nat} (h : e < s.nextScope) (x : String) (v : Value) :
    (s.define e x v).binds e x := by
  rw [binds, cell_define, if_pos ⟨rfl, h⟩]
  show Table.contains x ((s.cell e).bindings.set x v) = true
  rw [Table.contains_set, Bool.or_eq_true]
  exact .inl (decide_eq_true rfl)

@[simp]
theorem nextScope_child (s : Scopes) (outer : Nat) :
    (s.child outer).nextScope = s.nextScope + 1 :=
  Array.size_push _

@[simp]
theorem nextScope_define (s : Scopes) (e : Nat) (x : String) (v : Value) :
    (s.define e x v).nextScope = s.nextScope :=
  Array.size_modify

theorem lt_of_enclosing {e outer : Nat} (h : (s.cell e).enclosing = some outer) :
    e < s.nextScope := by
  refine Nat.lt_of_not_le fun hle => ?_
  rw [cell_of_le hle] at h
  cases h

theorem enclosing_define (s : Scopes) (e : Nat) (x : String) (v : Value) (e' : Nat) :
    ((s.define e x v).cell e').enclosing = (s.cell e').enclosing := by
  rw [cell_define]
  split
  · next h => rw [h.1]
  · rfl

theorem here?_define_ne (s : Scopes) {e e' : Nat} {x y : String} (h : e ≠ e' ∨ x ≠ y) (v : Value) :
    (s.define e x v).here? e' y = s.here? e' y := by
  rw [here?, here?, cell_define]
  split
  · next he =>
    rw [← he.1]
    exact Table.get?_set_ne (h.resolve_left fun hne => hne he.1) v _
  · rfl

theorem here?_define_self {e : Nat} (h : e < s.nextScope) (x : String) (v : Value) :
    (s.define e x v).here? e x = some v := by
  rw [here?, cell_define, if_pos ⟨rfl, h⟩]
  exact Table.get?_set_self x v _

theorem here?_of_le {e : Nat} {x : String} (h : s.nextScope ≤ e) : s.here? e x = none := by
  rw [here?, cell_of_le h]
  rfl

theorem lt_of_here? {e : Nat} {x : String} {v : Value} (h : s.here? e x = some v) :
    e < s.nextScope := by
  refine Nat.lt_of_not_le fun hle => ?_
  rw [here?_of_le hle] at h
  cases h

theorem here?_child (s : Scopes) (outer e : Nat) (x : String) :
    (s.child outer).here? e x = s.here? e x := by
  rw [here?, here?, cell_child]
  split
  · next h =>
    rw [h, cell_of_le (Nat.le_refl _)]
    rfl
  · rfl

end Scopes

/-! ### Chains -/

inductive Chain (log : List Site) (s : Scopes) :
    (pending : List String) → (e : Nat) → List Site → List (Table Bool) → Prop
  | globals {pending} : Chain log s pending 0 [] []
  | inner {pending e outer site sites scope scopes} (hsite : log[e]? = some site)
      (houter : (s.cell e).enclosing = some outer)
      (hnames : ∀ x, scope.get? x = some true → s.binds e x ∨ x ∈ pending)
      (hrest : Chain log s [] outer sites scopes) :
      Chain log s pending e (site :: sites) (scope :: scopes)

theorem getElem?_of_starts {α : Type} {l l' : List α} (h : l <+: l') {i : Nat} {a : α}
    (hi : l[i]? = some a) : l'[i]? = some a := by
  obtain ⟨more, rfl⟩ := h
  rw [List.getElem?_append_left (List.getElem?_eq_some_iff.1 hi).1]
  exact hi

namespace Chain

variable {log log' : List Site} {s s' : Scopes} {pending : List String} {e : Nat}
  {sites : List Site} {scopes : List (Table Bool)}

theorem mono (h : Chain log s pending e sites scopes) (hlog : log <+: log') (hs : s.Extends s') :
    Chain log' s' pending e sites scopes := by
  induction h with
  | globals => exact .globals
  | inner hsite houter hnames _ ih =>
    refine .inner (getElem?_of_starts hlog hsite) (hs.enclosing _ _ houter) (fun x hx => ?_) ih
    exact (hnames x hx).imp_left (hs.binds _ x)

/-- As many steps out as the walk has scopes lies the global scope. -/
theorem ancestor_globals (h : Chain log s pending e sites scopes) :
    s.ancestor? scopes.length e = some 0 := by
  induction h with
  | globals => rfl
  | inner _ houter _ _ ih =>
    rw [List.length_cons, Scopes.ancestor?, houter]
    exact ih

/-- The scope `i` steps out is the counterpart of scope `i` of the walk. -/
theorem ancestor (h : Chain log s [] e sites scopes) {i : Nat} {scope : Table Bool}
    (hi : scopes[i]? = some scope) :
    ∃ holder site, s.ancestor? i e = some holder ∧ sites[i]? = some site ∧
      log[holder]? = some site ∧ ∀ x, scope.get? x = some true → s.binds holder x := by
  generalize hp : ([] : List String) = pending at h
  induction h generalizing i with
  | globals => cases hi
  | @inner pending e outer site sites scope' scopes hsite houter hnames _ ih =>
    cases i with
    | zero =>
      obtain rfl : scope' = scope := by simpa using hi
      subst hp
      refine ⟨e, site, rfl, rfl, hsite, fun x hx => ?_⟩
      exact (hnames x hx).resolve_right List.not_mem_nil
    | succ i =>
      obtain ⟨holder, site', ha, hs, hlog, hbinds⟩ := ih (List.getElem?_cons_succ ▸ hi) rfl
      refine ⟨holder, site', ?_, ?_, hlog, hbinds⟩
      · rw [Scopes.ancestor?, houter]
        exact ha
      · rw [List.getElem?_cons_succ]
        exact hs

theorem mark_false {scope : Table Bool} (h : Chain log s pending e sites (scope :: scopes))
    (x : String) : Chain log s pending e sites (scope.set x false :: scopes) := by
  cases h with
  | inner hsite houter hnames hrest =>
    refine .inner hsite houter (fun y hy => hnames y ?_) hrest
    by_cases hxy : x = y
    · subst hxy
      rw [Table.get?_set_self] at hy
      cases hy
    · rwa [Table.get?_set_ne hxy] at hy

/-- A name that is marked has to get its value. -/
theorem mark_true {scope : Table Bool} (h : Chain log s pending e sites (scope :: scopes))
    (x : String) : Chain log s (x :: pending) e sites (scope.set x true :: scopes) := by
  cases h with
  | inner hsite houter hnames hrest =>
    refine .inner hsite houter (fun y hy => ?_) hrest
    by_cases hxy : x = y
    · subst hxy
      exact .inr List.mem_cons_self
    · rw [Table.get?_set_ne hxy] at hy
      exact (hnames y hy).imp_right (List.mem_cons_of_mem x)

theorem subset {pending' : List String} (h : Chain log s pending e sites scopes)
    (hp : ∀ x ∈ pending, s.binds e x ∨ x ∈ pending') : Chain log s pending' e sites scopes := by
  cases h with
  | globals => exact .globals
  | inner hsite houter hnames hrest =>
    refine .inner hsite houter (fun x hx => ?_) hrest
    rcases hnames x hx with hb | hm
    · exact .inl hb
    · exact hp x hm

theorem define {x : String} (h : Chain log s (x :: pending) e sites scopes) (v : Value) :
    Chain log (s.define e x v) pending e sites scopes := by
  have h' := h.mono (List.prefix_refl log) (s.extends_define e x v)
  cases h with
  | globals => exact .globals
  | inner _ houter =>
    refine h'.subset fun y hy => ?_
    rcases List.mem_cons.1 hy with rfl | hy
    · exact .inl (Scopes.binds_define (Scopes.lt_of_enclosing houter) y v)
    · exact .inr hy

theorem child (h : Chain log s [] e sites scopes) (hlog : log.length = s.nextScope) (site : Site) :
    Chain (log ++ [site]) (s.child e) [] s.nextScope (site :: sites) ([] :: scopes) := by
  refine .inner ?_ ?_ nofun (h.mono (List.prefix_append _ _) (s.extends_child e))
  · rw [← hlog, List.getElem?_append_right (Nat.le_refl _), Nat.sub_self]
    rfl
  · rw [Scopes.cell_child, if_pos rfl]

end Chain

end TreeWalk
